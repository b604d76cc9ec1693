import SvgCompact.Proofs.Markup.Front

/-!
Which texts are read without a fault.

Whether a piece may follow is decided by the names of the open elements and by
whether the root element is there, which is the outline of the document so far.
`Accepts` leads from one outline to another along a text; texts are accepted from
their end on, piece by piece.
-/

namespace SvgCompact
namespace Markup

open Text (Avoids)

/-- The names of the open elements, innermost first, and whether the root element is
there. -/
structure Outline where
  names : List (List Char)
  hasRoot : Bool

def Builder.outline (b : Builder) : Outline := ⟨b.pending.map (·.2), b.hasRoot⟩

/-- Whether some content is read as such when it is printed.  Character data is left
out. -/
structure IsPrintable (content : Content) : Prop where
  isWritable : IsWritable content
  isPlain : ∀ e, content = .element e → e.IsPlain
  doctype : ∀ body, content = .doctype body → body ≠ ""

theorem isPrintable_text (s : String) : IsPrintable (.text s) :=
  ⟨trivial, fun _ h => (nomatch h), fun _ h => (nomatch h)⟩

theorem isPrintable_cdata (s : String) : IsPrintable (.cdata s) :=
  ⟨trivial, fun _ h => (nomatch h), fun _ h => (nomatch h)⟩

theorem isPrintable_element {e : Element} (h : e.IsPlain) : IsPrintable (.element e) :=
  ⟨trivial, fun _ he => by cases he; exact h, fun _ h => (nomatch h)⟩

def Piece.isMisc : Piece → Bool
  | declaration _ => true
  | instruction _ => true
  | doctype _ => true
  | comment _ => true
  | _ => false

theorem Piece.isMisc_of_adds {piece : Piece} {content : Content} (hmisc : piece.isMisc = true)
    (h : piece.Adds content) : content.isMisc = true := by
  cases h with
  | instruction content =>
    obtain ⟨target, body, heq⟩ := instructionOf_eq content
    rw [heq]
    rfl
  | declaration => rfl
  | doctype => rfl
  | comment => rfl
  | cdata => cases hmisc
  | text => cases hmisc
  | start => cases hmisc

/-! ## Steps -/

/-- What a piece does to the outline. -/
inductive Step : Outline → Piece → Outline → Prop
  | start {names : List (List Char)} {hasRoot : Bool} {content : List Char} {isEmpty : Bool}
      {e : Element} (hfirst : names = [] → hasRoot = false)
      (he : Builder.elementOf content = .ok e) (hplain : e.IsPlain) :
      Step ⟨names, hasRoot⟩ (.start content isEmpty)
        ⟨if isEmpty then names else tagName content :: names, true⟩
  | finish (name : List Char) (names : List (List Char)) (hasRoot : Bool) :
      Step ⟨name :: names, hasRoot⟩ (.finish name) ⟨names, hasRoot⟩
  | text {o : Outline} {raw s : List Char} (hs : resolve raw = .ok s)
      (htop : o.names = [] → ∀ c ∈ s, Text.isBlank c = true) : Step o (.text raw) o
  | cdata {o : Outline} {body : List Char} (hopen : o.names ≠ []) : Step o (.cdata body) o
  | misc {o : Outline} {piece : Piece} (hmisc : piece.isMisc = true)
      (hadds : ∀ content, piece.Adds content → IsPrintable content) : Step o piece o

theorem Step.isPrintable {o o' : Outline} {piece : Piece} (h : Step o piece o')
    {content : Content} (hadds : piece.Adds content) : IsPrintable content := by
  cases h with
  | start _ he hplain =>
    cases hadds with
    | start _ _ he' =>
      rw [he] at he'
      cases he'
      exact isPrintable_element hplain
  | finish => cases hadds
  | text _ _ =>
    cases hadds
    exact isPrintable_text _
  | cdata _ =>
    cases hadds
    exact isPrintable_cdata _
  | misc _ h => exact h _ hadds

theorem atTop_eq {b : Builder} : b.atTop = b.outline.names.isEmpty := by
  unfold Builder.atTop Builder.outline
  cases b.pending <;> rfl

theorem addText_of_resolve {b : Builder} {raw s : List Char} (hs : resolve raw = .ok s)
    (htop : b.outline.names = [] → ∀ c ∈ s, Text.isBlank c = true) :
    ∃ b', b.addText raw = .ok b' ∧ b'.outline = b.outline := by
  rw [Builder.addText]
  rw [hs]
  simp only [Except.mapError, bind, Except.bind]
  split
  · refine ⟨_, rfl, ?_⟩
    split <;> split <;> rfl
  · next hvisible =>
    have hopen : ¬ b.atTop = true := by
      rw [atTop_eq, List.isEmpty_iff]
      intro hnames
      exact hvisible (List.isEmpty_iff.2 (Text.trimBy_eq_nil_iff.2 (htop hnames)))
    rw [if_neg hopen]
    exact ⟨_, rfl, rfl⟩

theorem Step.add {o o' : Outline} {piece : Piece} (h : Step o piece o') {b : Builder}
    (hb : b.outline = o) : ∃ b', b.add piece = .ok b' ∧ b'.outline = o' := by
  cases h with
  | @start names hasRoot content isEmpty e hfirst he hplain =>
    have hnames : b.outline.names = names := by rw [hb]
    have hhas : b.hasRoot = hasRoot := congrArg Outline.hasRoot hb
    have hsecond : (b.atTop && b.hasRoot) = false := by
      rw [atTop_eq, hnames, hhas]
      cases names with
      | nil => exact hfirst rfl
      | cons _ _ => rfl
    refine ⟨_, Builder.addStart_eq_ok_iff.2 ⟨hsecond, e, he, rfl⟩, ?_⟩
    rw [← hnames]
    cases isEmpty <;> rfl
  | finish name names hasRoot =>
    rw [Builder.outline] at hb
    rw [Builder.add, Builder.addFinish]
    cases hpending : b.pending with
    | nil =>
      rw [hpending] at hb
      cases hb
    | cons x rest =>
      obtain ⟨id, expected⟩ := x
      rw [hpending] at hb
      cases hb
      refine ⟨{ b with pending := rest }, ?_, rfl⟩
      simp only [beq_self_eq_true, if_true]
  | text hs htop =>
    subst hb
    exact addText_of_resolve hs htop
  | cdata hopen =>
    subst hb
    have htop : ¬ b.atTop = true := by
      rwa [atTop_eq, List.isEmpty_iff]
    rw [Builder.add, if_neg htop]
    exact ⟨_, rfl, rfl⟩
  | misc hmisc _ =>
    subst hb
    cases piece with
    | declaration content => exact ⟨_, rfl, rfl⟩
    | instruction content => exact ⟨_, congrArg _ (addInstruction_eq b content), rfl⟩
    | doctype body => exact ⟨_, rfl, rfl⟩
    | comment body => exact ⟨_, rfl, rfl⟩
    | cdata body => cases hmisc
    | text raw => cases hmisc
    | start content isEmpty => cases hmisc
    | finish name => cases hmisc

/-- The texts that lead from one outline to another. -/
inductive Accepts : Outline → List Char → Outline → Prop
  | nil (o : Outline) : Accepts o [] o
  | cons {o o₁ o' : Outline} {c : Char} {cs rest : List Char} {piece : Piece}
      (hnext : Piece.next c cs = .ok (piece, rest)) (hstep : Step o piece o₁)
      (h : Accepts o₁ rest o') : Accepts o (c :: cs) o'

theorem Accepts.readPieces {o o' : Outline} {s : List Char} (h : Accepts o s o') {b : Builder}
    (hb : b.outline = o) (hsound : b.IsSound IsPrintable) (offset : Nat) :
    ∃ b', Markup.readPieces offset b s = .ok b' ∧ b'.outline = o' ∧ b'.IsSound IsPrintable := by
  induction h generalizing b offset with
  | nil o =>
    refine ⟨b, ?_, hb, hsound⟩
    rw [Markup.readPieces]
  | cons hnext hstep _ ih =>
    obtain ⟨b₁, hadd, hb₁⟩ := hstep.add hb
    have hsound₁ := hsound.add (fun _ => hstep.isPrintable) hadd
    rw [readPieces_cons hnext, hadd]
    exact ih hb₁ hsound₁ _

/-! ## Pieces in front of a text -/

/-- The piece for an instruction with some text, which is the declaration if the text
begins with its name. -/
def instructionPiece (content : List Char) : Piece :=
  match Text.after? "xml".toList content with
  | some after =>
    if (after.take 1).all Text.isMarkupBlank then .declaration after else .instruction content
  | none => .instruction content

theorem read_instruction {content : List Char} (h : Avoids '?' '>' ('?' :: content))
    (s : List Char) : Piece.read '<' ('?' :: content ++ "?>".toList ++ s) =
      .ok (instructionPiece content, s) := by
  have hcut : Text.cut? "?>".toList ('?' :: content ++ "?>".toList ++ s)
      = some ('?' :: content, s) :=
    Text.cut?_append ((Text.isBody_pair_iff (by decide)).2 h) s
  rw [List.cons_append, List.cons_append] at hcut ⊢
  have hread : Piece.read '<' ('?' :: (content ++ "?>".toList ++ s))
      = Piece.nextInstruction ('?' :: (content ++ "?>".toList ++ s)) := rfl
  rw [hread, Piece.nextInstruction, hcut, instructionPiece]
  cases hafter : Text.after? "xml".toList content with
  | none => simp only [hafter]
  | some after =>
    simp only [hafter]
    split <;> rfl

theorem instructionPiece_cases (content : List Char) :
    (∃ after, instructionPiece content = .declaration after) ∨
      instructionPiece content = .instruction content := by
  unfold instructionPiece
  split
  · next after _ =>
    split
    · exact .inl ⟨after, rfl⟩
    · exact .inr rfl
  · exact .inr rfl

theorem next_doctype {body : String} (hbody : IsPrintable (.doctype body)) (s : List Char) :
    Piece.next '<' ('!' :: ("DOCTYPE ".toList ++ body.toList ++ ['>']) ++ s) =
      .ok (.doctype body.toList, s) := by
  obtain ⟨hbalanced, hhead⟩ := hbody.isWritable
  obtain ⟨c, cs, hcons⟩ : ∃ c cs, body.toList = c :: cs := by
    cases hchars : body.toList with
    | nil => exact absurd (String.toList_eq_nil_iff.1 hchars) (hbody.doctype body rfl)
    | cons c cs => exact ⟨c, cs, rfl⟩
  have hc : Text.isBlank c = false := hhead c (by rw [hcons]; rfl)
  have htake := @takeBalanced_append 0 ("DOCTYPE ".toList ++ body.toList)
    ((isBalanced_append_iff (by decide) 0 _).2 hbalanced) s
  have hskip : skipBlanks (' ' :: body.toList) = body.toList := by
    have hmarkup : Text.isMarkupBlank c = false := by
      refine Bool.eq_false_iff.2 fun hblank => ?_
      rw [Text.isBlank_of_isMarkupBlank hblank] at hc
      cases hc
    rw [hcons, skipBlanks, List.dropWhile_cons_of_pos (by decide),
      List.dropWhile_cons_of_neg (by simp [hmarkup])]
  have hword : ∀ t, Text.sameLetters (("DOCTYPE ".toList ++ t).take 7) "doctype".toList = true :=
    fun t => rfl
  have hdrop : ∀ t, ("DOCTYPE ".toList ++ t).drop 7 = ' ' :: t := fun t => rfl
  refine next_of_read ?_ (List.suffix_append _ s)
  rw [List.cons_append, List.append_assoc, List.append_assoc]
  show Piece.nextDoctype ("DOCTYPE ".toList ++ (body.toList ++ (['>'] ++ s))) = _
  rw [List.singleton_append, ← List.append_assoc, Piece.nextDoctype, htake]
  simp only [hword, if_true, hdrop, hskip]
  simp [hcons]

namespace Accepts

variable {o o₁ o' : Outline} {s : List Char}

theorem misc (cs : List Char) {piece : Piece} (h : Accepts o s o')
    (hnext : Piece.next '<' (cs ++ s) = .ok (piece, s)) (hmisc : piece.isMisc = true)
    (hdoctype : ∀ body, piece.Adds (.doctype body) → body ≠ "") :
    Accepts o ('<' :: cs ++ s) o' := by
  have hsound := Piece.isSound_of_next hnext
  refine .cons hnext (.misc hmisc fun content hadds => ?_) h
  refine ⟨isWritable_of_adds hsound hadds, ?_, ?_⟩
  · rintro e rfl
    cases Piece.isMisc_of_adds hmisc hadds
  · rintro body rfl
    exact hdoctype body hadds

theorem comment {body : String} (hbody : IsWritable (.comment body)) (h : Accepts o s o') :
    Accepts o (printLeaf (.comment body) ++ s) o' :=
  h.misc _ (next_comment hbody s) rfl fun _ hadds => nomatch hadds

theorem cdata {body : String} (hbody : Text.IsBody "]]>".toList body.toList)
    (hopen : o.names ≠ []) (h : Accepts o s o') :
    Accepts o (printLeaf (.cdata body) ++ s) o' :=
  .cons (next_cdata hbody s) (.cdata hopen) h

theorem not_adds_doctype {content : List Char} {body : String} :
    ¬ Piece.Adds (.instruction content) (.doctype body) := by
  intro h
  generalize hdoctype : Content.doctype body = c at h
  cases h
  obtain ⟨target, rest, heq⟩ := instructionOf_eq content
  rw [heq] at hdoctype
  cases hdoctype

theorem printLeaf_instruction (target body : String) : printLeaf (.instruction target body) =
    '<' :: ('?' :: (target.toList ++ if body.isEmpty then [] else ' ' :: body.toList)
      ++ ['?', '>']) := by
  have h : printLeaf (.instruction target body) = '<' :: '?' :: target.toList
    ++ (if body.isEmpty then [] else ' ' :: body.toList) ++ ['?', '>'] := rfl
  simpa using h

theorem instruction {target body : String} (hbody : IsWritable (.instruction target body))
    (h : Accepts o s o') : Accepts o (printLeaf (.instruction target body) ++ s) o' := by
  rw [IsWritable, List.cons_append] at hbody
  rw [printLeaf_instruction]
  generalize (target.toList ++ if body.isEmpty then [] else ' ' :: body.toList) = content
    at hbody ⊢
  have hnext := next_of_read (read_instruction hbody s) (List.suffix_append _ s)
  rcases instructionPiece_cases content with ⟨after, hpiece⟩ | hpiece
  · rw [hpiece] at hnext
    refine h.misc _ hnext rfl fun body hadds => ?_
    cases hadds
  · rw [hpiece] at hnext
    exact h.misc _ hnext rfl fun body hadds => absurd hadds not_adds_doctype

theorem doctype {body : String} (hbody : IsPrintable (.doctype body))
    (h : Accepts o s o') : Accepts o (printLeaf (.doctype body) ++ s) o' := by
  refine h.misc _ (next_doctype hbody s) rfl fun body' hadds => ?_
  cases hadds
  intro hempty
  have htrim : Text.trim body.toList = [] := by
    rw [← String.toList_ofList (l := Text.trim body.toList), hempty]
    rfl
  -- nothing blank stands at the front of a printable document type
  cases hchars : body.toList with
  | nil => exact absurd (String.toList_eq_nil_iff.1 hchars) (hbody.doctype body rfl)
  | cons c cs =>
    have hblank := Text.trimBy_eq_nil_iff.1 htrim c (by rw [hchars]; simp)
    rw [hbody.isWritable.2 c (by rw [hchars]; rfl)] at hblank
    cases hblank

theorem text_of_accepts (h : Accepts o s o') : ∃ t, resolve (s.takeWhile (· != '<')) = .ok t
    ∧ (o.names = [] → ∀ c ∈ t, Text.isBlank c = true)
    ∧ Accepts o (s.dropWhile (· != '<')) o' := by
  have hresolve : resolve [] = .ok [] := Resolves.nil.resolve_eq
  cases h with
  | nil => exact ⟨[], hresolve, by simp, .nil o⟩
  | @cons _ o₁ _ c cs rest piece hnext hstep hrest =>
    by_cases hc : c = '<'
    · subst hc
      exact ⟨[], hresolve, by simp, .cons hnext hstep hrest⟩
    · rw [next_of_ne hc] at hnext
      cases hnext
      rw [List.takeWhile_cons_of_pos (by simpa using hc),
        List.dropWhile_cons_of_pos (by simpa using hc)]
      cases hstep with
      | text hs htop => exact ⟨_, hs, htop, hrest⟩
      | misc hmisc _ => cases hmisc

/-- Text in front, which is one piece with the text that follows it. -/
theorem text {raw u : List Char} (hraw : Resolves raw u) (hlt : '<' ∉ raw)
    (htop : o.names = [] → ∀ c ∈ u, Text.isBlank c = true) (h : Accepts o s o') :
    Accepts o (raw ++ s) o' := by
  cases raw with
  | nil => exact h
  | cons c cs =>
    rw [List.mem_cons, not_or] at hlt
    obtain ⟨t, ht, htop', hrest⟩ := text_of_accepts h
    have hcs : ∀ x ∈ cs, (x != '<') = true := fun x hx => by
      simpa using ne_of_mem_of_not_mem hx hlt.2
    have hnext := next_of_ne (Ne.symm hlt.1) (cs ++ s)
    rw [List.takeWhile_append_of_pos hcs, List.dropWhile_append_of_pos hcs] at hnext
    refine .cons hnext (.text (hraw.resolve_append ht) fun hnames x hx => ?_) hrest
    exact (List.mem_append.1 hx).elim (htop hnames x) (htop' hnames x)

/-! ## Tags in front of a text -/

section Tags

variable {e : Element} (he : e.IsPlain) (options : PrintOptions)
include he

theorem isPlain_printed : (Element.ofAttributes e.name (printedAttributes options e)).IsPlain :=
  Element.all_ofAttributes he.name (isPlain_of_mem_printedAttributes he options)

variable {names : List (List Char)} {hasRoot : Bool} (hfirst : names = [] → hasRoot = false)
include hfirst

theorem startTag (h : Accepts ⟨e.name.full.toList :: names, true⟩ s o') :
    Accepts ⟨names, hasRoot⟩ ('<' :: printHead options e ++ '>' :: s) o' := by
  have hstep := @Step.start names hasRoot _ false _ hfirst (elementOf_printHead he options)
    (isPlain_printed he options)
  rw [tagName_printHead he] at hstep
  exact .cons (next_startTag he options s) hstep h

theorem emptyTag (h : Accepts ⟨names, true⟩ s o') :
    Accepts ⟨names, hasRoot⟩ ('<' :: printHead options e ++ '/' :: '>' :: s) o' := by
  have hstep := @Step.start names hasRoot _ true _ hfirst (elementOf_printHead he options)
    (isPlain_printed he options)
  exact .cons (next_emptyTag he options s) hstep h

end Tags

theorem endTag {n : QName} (hn : n.IsWord) {names : List (List Char)} {hasRoot : Bool}
    (h : Accepts ⟨names, hasRoot⟩ s o') :
    Accepts ⟨n.full.toList :: names, hasRoot⟩ ('<' :: '/' :: n.full.toList ++ '>' :: s) o' :=
  .cons (next_endTag hn s) (.finish _ _ _) h

end Accepts

end Markup
end SvgCompact
