import SvgCompact.Markup.Piece
import SvgCompact.Markup.Reader
import SvgCompact.Proofs.Document.Editing
import SvgCompact.Proofs.Text.Search

/-!
What is known of a document that was read.

Each piece of markup has the form that ends where it does.

While a document grows, its links stay those of a forest below one root, beside the
root element there are only comments and the like, and whatever holds of each content
that is added holds of all contents.
-/

namespace SvgCompact
namespace Markup

open Text (Avoids IsBody)

/-! ## Brackets in pairs -/

/-- Whether every `<` is closed and every `>` but `depth` of them closes one. -/
def IsBalanced : Nat → List Char → Prop
  | depth, [] => depth = 0
  | depth, c :: cs =>
    if c = '<' then IsBalanced (depth + 1) cs
    else if c = '>' then ∃ n, depth = n + 1 ∧ IsBalanced n cs
    else IsBalanced depth cs

theorem takeBalanced_append {depth : Nat} {body : List Char} (h : IsBalanced depth body)
    (rest : List Char) : takeBalanced depth (body ++ '>' :: rest) = some (body, rest) := by
  induction body generalizing depth with
  | nil =>
    cases h
    rfl
  | cons c cs ih =>
    rw [IsBalanced] at h
    rw [List.cons_append]
    unfold takeBalanced
    split at h
    · next hopen => simp [hopen, ih h]
    · next hopen =>
      split at h
      · next hclose =>
        obtain ⟨n, rfl, hn⟩ := h
        simp [hclose, ih hn]
      · next hclose => simp [hopen, hclose, ih h]

theorem isBalanced_of_takeBalanced {depth : Nat} {s body rest : List Char}
    (h : takeBalanced depth s = some (body, rest)) :
    s = body ++ '>' :: rest ∧ IsBalanced depth body := by
  induction s generalizing depth body with
  | nil => cases h
  | cons c cs ih =>
    have hmore : ∀ n, (takeBalanced n cs).map (fun x => (c :: x.1, x.2)) = some (body, rest) →
        ∃ b, body = c :: b ∧ cs = b ++ '>' :: rest ∧ IsBalanced n b := by
      intro n hn
      obtain ⟨⟨b, r⟩, hb, heq⟩ := Option.map_eq_some_iff.1 hn
      cases heq
      exact ⟨b, rfl, ih hb⟩
    unfold takeBalanced at h
    simp only [beq_iff_eq] at h
    split at h
    · next hopen =>
      obtain ⟨b, rfl, rfl, hb⟩ := hmore _ h
      exact ⟨rfl, by rwa [IsBalanced, if_pos hopen]⟩
    · next hopen =>
      split at h
      · next hclose =>
        cases depth with
        | zero =>
          cases h
          exact ⟨by rw [hclose]; rfl, rfl⟩
        | succ n =>
          obtain ⟨b, rfl, rfl, hb⟩ := hmore _ h
          exact ⟨rfl, by rw [IsBalanced, if_neg hopen, if_pos hclose]; exact ⟨n, rfl, hb⟩⟩
      · next hclose =>
        obtain ⟨b, rfl, rfl, hb⟩ := hmore _ h
        exact ⟨rfl, by rwa [IsBalanced, if_neg hopen, if_neg hclose]⟩

/-- What is neither an opening nor a closing bracket does not count. -/
def IsNeutral (s : List Char) : Prop := ∀ c ∈ s, c ≠ '<' ∧ c ≠ '>'

instance (s : List Char) : Decidable (IsNeutral s) := List.decidableBAll _ s

theorem isBalanced_append_iff {front : List Char} (h : IsNeutral front) (depth : Nat)
    (s : List Char) : IsBalanced depth (front ++ s) ↔ IsBalanced depth s := by
  induction front with
  | nil => rfl
  | cons c cs ih =>
    have hc := h c (by simp)
    rw [List.cons_append, IsBalanced, if_neg hc.1, if_neg hc.2]
    exact ih fun x hx => h x (by simp [hx])

theorem isBalanced_of_append {back : List Char} (h : IsNeutral back) {depth : Nat}
    {s : List Char} (hs : IsBalanced depth (s ++ back)) : IsBalanced depth s := by
  induction s generalizing depth with
  | nil =>
    have hback := (isBalanced_append_iff h depth []).1
    simp only [List.append_nil] at hback
    exact hback hs
  | cons c cs ih =>
    rw [List.cons_append, IsBalanced] at hs
    split at hs
    · next hopen =>
      rw [IsBalanced, if_pos hopen]
      exact ih hs
    · next hopen =>
      split at hs
      · next hclose =>
        rw [IsBalanced, if_neg hopen, if_pos hclose]
        obtain ⟨n, hn, hb⟩ := hs
        exact ⟨n, hn, ih hb⟩
      · next hclose =>
        rw [IsBalanced, if_neg hopen, if_neg hclose]
        exact ih hs

/-! ## Pieces -/

namespace Piece

/-- What a piece that was read is made of. -/
def IsSound : Piece → Prop
  | declaration content => Avoids '?' '>' content
  | instruction content => Avoids '?' '>' ('?' :: content)
  | doctype body => IsBalanced 0 body
  | comment body => IsBody "-->".toList body
  | cdata body => IsBody "]]>".toList body
  | text _ => True
  | start _ _ => True
  | finish _ => True

theorem isSound_nextComment {cs rest : List Char} {piece : Piece}
    (h : nextComment cs = .ok (piece, rest)) : piece.IsSound := by
  unfold nextComment at h
  split at h
  · split at h
    · next hcut =>
      cases h
      exact (Text.isBody_of_cut? hcut).2
    · cases h
  · cases h

theorem isSound_nextCData {cs rest : List Char} {piece : Piece}
    (h : nextCData cs = .ok (piece, rest)) : piece.IsSound := by
  rw [nextCData] at h
  split at h
  · split at h
    · next hcut =>
      cases h
      exact (Text.isBody_of_cut? hcut).2
    · cases h
  · cases h

theorem isSound_nextInstruction {cs rest : List Char} {piece : Piece}
    (h : nextInstruction cs = .ok (piece, rest)) : piece.IsSound := by
  rw [nextInstruction] at h
  split at h
  · next content _ hcut =>
    have havoids : Avoids '?' '>' ('?' :: content) :=
      (Text.isBody_pair_iff (by decide)).1 (Text.isBody_of_cut? hcut).2
    split at h
    · next after hafter =>
      split at h
      · cases h
        refine havoids.of_isInfix ?_
        rw [Text.after?] at hafter
        split at hafter
        · cases hafter
          exact (List.drop_suffix _ _).isInfix.trans (List.suffix_cons _ _).isInfix
        · cases hafter
      · cases h
        exact havoids
    · cases h
      exact havoids
  · cases h

theorem isNeutral_of_sameLetters {s t : List Char} (h : Text.sameLetters s t = true)
    (ht : IsNeutral (Text.lower t)) : IsNeutral s := by
  have heq : Text.lower s = Text.lower t := eq_of_beq h
  intro c hc
  have hmem : c.toLower ∈ Text.lower t := by
    rw [← heq]
    exact List.mem_map_of_mem hc
  have hneutral := ht _ hmem
  constructor
  · intro heq
    subst heq
    exact hneutral.1 (by decide)
  · intro heq
    subst heq
    exact hneutral.2 (by decide)

theorem isNeutral_of_isMarkupBlank {s : List Char} (h : ∀ c ∈ s, Text.isMarkupBlank c = true) :
    IsNeutral s := by
  intro c hc
  have hblank := h c hc
  constructor
  · intro heq
    subst heq
    revert hblank
    decide
  · intro heq
    subst heq
    revert hblank
    decide

theorem isSound_nextDoctype {cs rest : List Char} {piece : Piece}
    (h : nextDoctype cs = .ok (piece, rest)) : piece.IsSound := by
  rw [nextDoctype] at h
  split at h
  · next content _ htake =>
    split at h
    · next hword =>
      simp only at h
      split at h
      · cases h
      · cases h
        have hbalanced := (isBalanced_of_takeBalanced htake).2
        have hfront : IsNeutral (content.take 7) :=
          isNeutral_of_sameLetters hword (by decide)
        rw [← List.take_append_drop 7 content, isBalanced_append_iff hfront] at hbalanced
        have hblanks : IsNeutral ((content.drop 7).takeWhile Text.isMarkupBlank) :=
          isNeutral_of_isMarkupBlank fun c hc =>
            List.all_eq_true.1 List.all_takeWhile c hc
        rw [← List.takeWhile_append_dropWhile (p := Text.isMarkupBlank) (l := content.drop 7),
          isBalanced_append_iff hblanks] at hbalanced
        exact hbalanced
    · cases h
  · cases h

theorem isSound_nextTag {cs rest : List Char} {piece : Piece}
    (h : nextTag cs = .ok (piece, rest)) : piece.IsSound := by
  rw [nextTag] at h
  split at h
  · cases h
  · cases h
    trivial
  · split at h
    · cases h
      trivial
    · cases h
      trivial

theorem isSound_of_next {c : Char} {cs rest : List Char} {piece : Piece}
    (h : next c cs = .ok (piece, rest)) : piece.IsSound := by
  rw [next] at h
  cases hread : read c cs with
  | error e =>
    rw [hread] at h
    cases h
  | ok r =>
    rw [hread] at h
    cases h
    unfold read at hread
    split at hread
    · split at hread
      · exact isSound_nextCData hread
      · exact isSound_nextComment hread
      · split at hread
        · exact isSound_nextDoctype hread
        · cases hread
      · cases hread
      · exact isSound_nextInstruction hread
      · exact isSound_nextTag hread
    · cases hread
      trivial

end Piece

end Markup

/-! ## Adding a node -/

namespace Document

variable {d : Document} {p : NodeId} {content : Content}

theorem content_append (d : Document) (p : NodeId) (content : Content) (j : NodeId) :
    (d.append p content).1.content j = if j = d.size then content else d.content j := by
  simp [append, appendChild, insertChild, content_create]

@[simp] theorem size_append (d : Document) (p : NodeId) (content : Content) :
    (d.append p content).1.size = d.size + 1 := by
  simp [append, appendChild, insertChild]

theorem parent_append (h : d.IsForest) (hp : p < d.size) (content : Content) (j : NodeId) :
    (d.append p content).1.parent j = if j = d.size then some p else d.parent j := by
  rw [append]
  simp only [create_snd]
  rw [appendChild, IsForest.parent_insertChild (h.canHold_create content hp), parent_create]

theorem isElement_append (p : NodeId) (content : Content) {j : NodeId} (hj : j < d.size) :
    (d.append p content).1.isElement j = d.isElement j := by
  rw [isElement, content_append, if_neg (Nat.ne_of_lt hj), isElement]

theorem forall_content_append {Q : Content → Prop} (h : ∀ j, Q (d.content j)) (p : NodeId)
    (hc : Q content) (j : NodeId) : Q ((d.append p content).1.content j) := by
  rw [content_append]
  split
  · exact hc
  · exact h j

namespace IsRooted

theorem empty : Document.empty.IsRooted where
  isForest := .empty
  size_pos := by decide
  parent_root := rfl
  content_root := rfl
  only_root c p h := by
    match c with
    | 0 => cases h
    | c + 1 => cases h

theorem append (h : d.IsRooted) (hp : p < d.size) (hc : content ≠ .root) :
    (d.append p content).1.IsRooted := by
  have hroot : root ≠ d.size := Nat.ne_of_lt h.size_pos
  refine ⟨h.isForest.append content hp, ?_, ?_, ?_, fun c q hcq => ?_⟩
  · rw [size_append]
    exact Nat.lt_succ_of_lt h.size_pos
  · rw [parent_append h.isForest hp, if_neg hroot, h.parent_root]
  · rw [content_append, if_neg hroot, h.content_root]
  · rw [content_append]
    rw [parent_append h.isForest hp] at hcq
    split
    · exact hc
    · next hne =>
      rw [if_neg hne] at hcq
      exact h.only_root c q hcq

end IsRooted

end Document

namespace Markup

open Document (root)

/-! ## The document while it is read -/

namespace Builder

/-- What is at the top of a document: the root element if it is there, and only
comments and the like beside it. -/
def TopIs (d : Document) : Bool → Prop
  | true => ∃ r, d.isElement r = true ∧ d.parent r = some root
      ∧ ∀ c, d.parent c = some root → c = r ∨ (d.content c).isMisc = true
  | false => ∀ c, d.parent c = some root → (d.content c).isMisc = true

/-- What stands beside the root element may be added at the top. -/
theorem TopIs.append {d : Document} {hasRoot : Bool} (h : TopIs d hasRoot) (hd : d.IsForest)
    {p : NodeId} (hp : p < d.size) {content : Content}
    (hmisc : p = root → content.isMisc = true) : TopIs (d.append p content).1 hasRoot := by
  have hparent := Document.parent_append hd hp content
  have hcontent := Document.content_append d p content
  have hbeside : ∀ c, (d.append p content).1.parent c = some root →
      ((d.append p content).1.content c).isMisc = true
        ∨ (c ≠ d.size ∧ d.parent c = some root) := by
    intro c hc
    rw [hparent] at hc
    by_cases hnew : c = d.size
    · left
      rw [if_pos hnew] at hc
      rw [hcontent, if_pos hnew]
      exact hmisc (Option.some.inj hc)
    · rw [if_neg hnew] at hc
      exact .inr ⟨hnew, hc⟩
  cases hasRoot with
  | true =>
    obtain ⟨r, helement, hr, hothers⟩ := h
    have hlt := Document.lt_size_of_isElement helement
    refine ⟨r, (Document.isElement_append p content hlt).trans helement, ?_, fun c hc => ?_⟩
    · rw [hparent, if_neg (Nat.ne_of_lt hlt), hr]
    · rcases hbeside c hc with hmisc | ⟨hnew, hc'⟩
      · exact .inr hmisc
      · refine (hothers c hc').imp_right fun hmisc => ?_
        rwa [hcontent, if_neg hnew]
  | false =>
    intro c hc
    rcases hbeside c hc with hmisc | ⟨hnew, hc'⟩
    · exact hmisc
    · rw [hcontent, if_neg hnew]
      exact h c hc'

/-- The root element may be added where there is none. -/
theorem TopIs.appendRoot {d : Document} (h : TopIs d false) (hd : d.IsRooted) (e : Element) :
    TopIs (d.append root (.element e)).1 true := by
  have hparent := Document.parent_append hd.isForest hd.size_pos (.element e)
  have hcontent := Document.content_append d root (.element e)
  refine ⟨d.size, ?_, ?_, fun c hc => ?_⟩
  · rw [Document.isElement, hcontent, if_pos rfl]
    rfl
  · rw [hparent, if_pos rfl]
  · rw [hparent] at hc
    by_cases hnew : c = d.size
    · exact .inl hnew
    · rw [if_neg hnew] at hc
      rw [hcontent, if_neg hnew]
      exact .inr (h c hc)

structure IsSound (Q : Content → Prop) (b : Builder) : Prop where
  rooted : b.document.IsRooted
  contents : ∀ j, Q (b.document.content j)
  pending : ∀ x ∈ b.pending, b.document.isElement x.1 = true
  top : TopIs b.document b.hasRoot
  started : b.pending ≠ [] → b.hasRoot = true

namespace IsSound

variable {Q : Content → Prop} {b b' : Builder}

theorem empty (hroot : Q .root) : empty.IsSound Q where
  rooted := .empty
  contents j := by
    match j with
    | 0 => exact hroot
    | j + 1 => exact hroot
  pending := by simp [Builder.empty]
  top c h := by
    match c with
    | 0 => cases h
    | c + 1 => cases h
  started := by simp [Builder.empty]

theorem place_lt_size (h : b.IsSound Q) : b.place < b.document.size := by
  have hpending := h.pending
  rw [place]
  split
  · next id name rest heq =>
    rw [heq] at hpending
    exact Document.lt_size_of_isElement (hpending (id, name) (by simp))
  · exact h.rooted.size_pos

theorem place_ne_root (h : b.IsSound Q) (htop : b.atTop = false) : b.place ≠ root := by
  have hpending := h.pending
  rw [place]
  rw [atTop] at htop
  split
  · next id name rest heq =>
    rw [heq] at hpending
    intro hid
    have helement := hpending (id, name) (by simp)
    rw [Document.isElement, hid, h.rooted.content_root] at helement
    cases helement
  · next heq =>
    rw [heq] at htop
    cases htop

/-- The document itself is no element. -/
theorem atTop_eq_false (h : b.IsSound Q) {e : Element}
    (he : b.document.element? b.place = some e) : b.atTop = false := by
  refine Bool.eq_false_iff.2 fun htop => ?_
  have hplace : b.place = root := by rw [place, List.isEmpty_iff.1 htop]
  rw [hplace, Document.element?, h.rooted.content_root] at he
  cases he

theorem append (h : b.IsSound Q) {content : Content} (hQ : Q content) (hroot : content ≠ .root)
    (htop : b.atTop = true → content.isMisc = true) : (b.append content).IsSound Q := by
  have hp := h.place_lt_size
  refine ⟨h.rooted.append hp hroot, Document.forall_content_append h.contents _ hQ,
    fun x hx => ?_, ?_, h.started⟩
  · have helement := h.pending x hx
    have hlt := Document.lt_size_of_isElement helement
    exact (Document.isElement_append b.place content hlt).trans helement
  · refine h.top.append h.rooted.isForest hp fun hplace => htop (Bool.of_not_eq_false fun hnot => ?_)
    exact h.place_ne_root hnot hplace

theorem addRoot (h : b.IsSound Q) {e : Element} (hQ : Q (.element e)) (htop : b.atTop = true)
    (hno : b.hasRoot = false) :
    IsSound Q ⟨(b.document.append b.place (.element e)).1, b.pending, true⟩ := by
  have hpending : b.pending = [] := List.isEmpty_iff.1 htop
  have hplace : b.place = root := by rw [place, hpending]
  have htops := h.top
  rw [hno] at htops
  refine ⟨h.rooted.append h.place_lt_size (by simp),
    Document.forall_content_append h.contents _ hQ, by simp [hpending], ?_, fun _ => rfl⟩
  rw [hplace]
  exact htops.appendRoot h.rooted e

theorem opened (h : b.IsSound Q) (hroot : b.hasRoot = true) {id : NodeId}
    (hid : b.document.isElement id = true) (name : List Char) :
    IsSound Q { b with pending := (id, name) :: b.pending } where
  rooted := h.rooted
  contents := h.contents
  pending x hx := by
    rcases List.mem_cons.1 hx with rfl | hx
    · exact hid
    · exact h.pending x hx
  top := h.top
  started _ := hroot

theorem closed (h : b.IsSound Q) {x : NodeId × List Char} {rest : List (NodeId × List Char)}
    (hpending : b.pending = x :: rest) : IsSound Q { b with pending := rest } where
  rooted := h.rooted
  contents := h.contents
  pending y hy := h.pending y (by simp [hpending, hy])
  top := h.top
  started _ := h.started (by simp [hpending])

end IsSound

theorem addStart_eq_ok_iff {b b' : Builder} {content : List Char} {isEmpty : Bool} :
    b.addStart content isEmpty = .ok b' ↔ (b.atTop && b.hasRoot) = false ∧
      ∃ e, elementOf content = .ok e ∧
        b' = ⟨(b.document.append b.place (.element e)).1,
          if isEmpty then b.pending else (b.document.size, tagName content) :: b.pending,
          true⟩ := by
  rw [addStart]
  by_cases hsecond : (b.atTop && b.hasRoot) = true
  · simp [hsecond, bind, Except.bind]
  · cases he : elementOf content with
    | error fault => simp [hsecond, bind, Except.bind]
    | ok e => simp [hsecond, bind, Except.bind, Document.append, eq_comm]

theorem IsSound.addStart {Q : Content → Prop} {b b' : Builder} (h : b.IsSound Q)
    {content : List Char} {isEmpty : Bool}
    (hQ : ∀ e, elementOf content = .ok e → Q (.element e))
    (hadd : b.addStart content isEmpty = .ok b') : b'.IsSound Q := by
  obtain ⟨hfirst, e, he, rfl⟩ := addStart_eq_ok_iff.1 hadd
  have hadded : IsSound Q ⟨(b.document.append b.place (.element e)).1, b.pending, true⟩ := by
    cases htop : b.atTop with
    | true =>
      rw [htop, Bool.true_and] at hfirst
      exact h.addRoot (hQ e he) htop hfirst
    | false =>
      have happend := h.append (hQ e he) (by simp) fun htop' => by simp [htop] at htop'
      have hroot : b.hasRoot = true := h.started fun hp => by simp [atTop, hp] at htop
      rw [← hroot]
      exact happend
  cases isEmpty with
  | true => exact hadded
  | false =>
    refine hadded.opened rfl ?_ _
    rw [Document.isElement, Document.content_append, if_pos rfl]
    rfl

end Builder

/-! ## Pieces -/

/-- The node for an instruction. -/
def instructionOf (content : List Char) : Content :=
  match Text.splitAt? Text.isBlank content with
  | some (target, body) =>
    .instruction (String.ofList target) (String.ofList (Text.trim body))
  | none => .instruction (String.ofList content) ""

theorem addInstruction_eq (b : Builder) (content : List Char) :
    b.addInstruction content = b.append (instructionOf content) := by
  unfold Builder.addInstruction instructionOf
  rcases Text.splitAt? Text.isBlank content with _ | ⟨target, body⟩ <;> rfl

theorem instructionOf_eq (content : List Char) :
    ∃ target body, instructionOf content = .instruction target body := by
  rw [instructionOf]
  split
  · exact ⟨_, _, rfl⟩
  · exact ⟨_, _, rfl⟩

/-- What a piece may add to a document. -/
inductive Piece.Adds : Piece → Content → Prop
  | declaration (content : List Char) :
      Adds (.declaration content) (.instruction "xml" (String.ofList (declarationBody content)))
  | instruction (content : List Char) : Adds (.instruction content) (instructionOf content)
  | doctype (body : List Char) : Adds (.doctype body) (.doctype (String.ofList (Text.trim body)))
  | comment (body : List Char) : Adds (.comment body) (.comment (String.ofList body))
  | cdata (body : List Char) : Adds (.cdata body) (.cdata (String.ofList body))
  | text (raw : List Char) (s : String) : Adds (.text raw) (.text s)
  | start (content : List Char) (isEmpty : Bool) {e : Element}
      (h : Builder.elementOf content = .ok e) : Adds (.start content isEmpty) (.element e)

namespace Builder.IsSound

variable {Q : Content → Prop} {b b' : Builder}

theorem addText (h : b.IsSound Q) {raw : List Char} (hQ : ∀ s, Q (.text s))
    (hadd : b.addText raw = .ok b') : b'.IsSound Q := by
  rw [Builder.addText] at hadd
  cases hs : resolve raw with
  | error fault =>
    rw [hs] at hadd
    cases hadd
  | ok s =>
    rw [hs] at hadd
    simp only [Except.mapError, bind, Except.bind] at hadd
    split at hadd
    · cases hadd
      cases he : b.document.element? b.place with
      | none => exact h
      | some e =>
        have hopen : b.atTop = false := h.atTop_eq_false he
        simp only
        split
        · exact h.append (hQ _) (by simp) fun htop => by simp [hopen] at htop
        · exact h
    · split at hadd
      · cases hadd
      · next htop =>
        cases hadd
        exact h.append (hQ _) (by simp) fun htop' => absurd htop' htop

theorem add (h : b.IsSound Q) {piece : Piece} (hQ : ∀ content, piece.Adds content → Q content)
    (hadd : b.add piece = .ok b') : b'.IsSound Q := by
  cases piece with
  | declaration content =>
    cases hadd
    exact h.append (hQ _ (.declaration content)) (by simp) fun _ => rfl
  | instruction content =>
    cases hadd
    have hq := hQ _ (.instruction content)
    obtain ⟨target, body, heq⟩ := instructionOf_eq content
    rw [addInstruction_eq]
    rw [heq] at hq ⊢
    exact h.append hq (by simp) fun _ => rfl
  | doctype body =>
    cases hadd
    exact h.append (hQ _ (.doctype body)) (by simp) fun _ => rfl
  | comment body =>
    cases hadd
    exact h.append (hQ _ (.comment body)) (by simp) fun _ => rfl
  | cdata body =>
    rw [Builder.add] at hadd
    split at hadd
    · cases hadd
    · next htop =>
      cases hadd
      exact h.append (hQ _ (.cdata body)) (by simp) fun htop' => absurd htop' htop
  | text raw => exact h.addText (fun s => hQ _ (.text raw s)) hadd
  | start content isEmpty =>
    exact h.addStart (fun e he => hQ _ (.start content isEmpty he)) hadd
  | finish name =>
    rw [Builder.add, addFinish] at hadd
    split at hadd
    · cases hadd
    · next id expected pending hpending =>
      split at hadd
      · cases hadd
        exact h.closed hpending
      · cases hadd

end Builder.IsSound

end Markup
end SvgCompact
