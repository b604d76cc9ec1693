import SvgCompact.Proofs.Document.Numbering
import SvgCompact.Proofs.Element.Forms
import SvgCompact.Proofs.Markup.Front

/-!
How a document grows while it is read.

Every node is added below the last one or a node above it, so nodes are numbered in
document order.  A text ends where markup begins, so two texts are never neighbours.
-/

namespace SvgCompact
namespace Markup

open Document (root)

/-! ## Readings -/

/-- The texts that lead from one document in the making to another, piece by piece. -/
inductive Reads : Builder → List Char → Builder → Prop
  | nil (b : Builder) : Reads b [] b
  | cons {b b₁ b' : Builder} {c : Char} {cs rest : List Char} {piece : Piece}
      (hnext : Piece.next c cs = .ok (piece, rest)) (hadd : b.add piece = .ok b₁)
      (h : Reads b₁ rest b') : Reads b (c :: cs) b'

theorem Reads.readPieces {b b' : Builder} {s : List Char} (h : Reads b s b') (offset : Nat) :
    readPieces offset b s = .ok b' := by
  induction h generalizing offset with
  | nil =>
    rw [Markup.readPieces]
  | cons hnext hadd _ ih =>
    rw [readPieces_cons hnext, hadd]
    exact ih _

theorem reads_of_readPieces {b b' : Builder} {s : List Char} {offset : Nat}
    (h : readPieces offset b s = .ok b') : Reads b s b' := by
  induction hn : s.length using Nat.strongRecOn generalizing offset b s with
  | ind n ih =>
    cases s with
    | nil =>
      rw [readPieces] at h
      cases h
      exact .nil _
    | cons c cs =>
      cases hnext : Piece.next c cs with
      | error fault =>
        rw [readPieces] at h
        split at h
        · cases h
        · next hpiece =>
          rw [hnext] at hpiece
          cases hpiece
      | ok r =>
        obtain ⟨piece, rest⟩ := r
        have hlt := length_of_next hnext
        rw [readPieces_cons hnext] at h
        split at h
        · cases h
        · next b₁ hadd =>
          refine .cons hnext hadd (ih rest.length ?_ h rfl)
          rw [← hn, List.length_cons]
          omega

/-- A reading is of a text from its beginning to its end. -/
theorem read_eq_ok_iff {s : String} {d : Document} : read s = .ok d ↔
    ∃ b, Reads .empty (dropMark s.toList) b ∧ b.pending = [] ∧ b.hasRoot = true ∧
      b.document = d := by
  unfold read
  constructor
  · intro h
    simp only at h
    split at h
    · cases h
    · next b hb =>
      split at h
      · cases h
      · next hpending =>
        split at h
        · cases h
        · next hroot =>
          cases h
          exact ⟨b, reads_of_readPieces hb, by simpa using hpending, by simpa using hroot, rfl⟩
  · rintro ⟨b, hb, hpending, hroot, rfl⟩
    simp only [hb.readPieces, hpending, hroot]
    rfl

/-! ## Texts -/

theorem ne_nil_of_resolve {raw s : List Char} (h : resolve raw = .ok s) (hraw : raw ≠ []) :
    s ≠ [] := by
  cases raw with
  | nil => exact absurd rfl hraw
  | cons c cs =>
    rw [resolve, resolveFrom] at h
    simp only [bind, Except.bind] at h
    split at h
    · split at h
      · cases h
      · split at h
        · cases h
        · split at h
          · cases h
          · cases h
            simp
    · split at h
      · cases h
      · cases h
        simp

/-- Markup is no text. -/
theorem next_ne_text (cs raw rest : List Char) : Piece.next '<' cs ≠ .ok (.text raw, rest) := by
  intro h
  rw [Piece.next] at h
  cases hread : Piece.read '<' cs with
  | error fault =>
    rw [hread] at h
    cases h
  | ok r =>
    obtain ⟨piece, after⟩ := r
    rw [hread] at h
    obtain rfl : piece = .text raw := (Prod.mk.inj (Except.ok.inj h)).1
    unfold Piece.read at hread
    rw [if_pos (by rfl)] at hread
    split at hread
    · unfold Piece.nextCData at hread
      split at hread
      · split at hread <;> cases hread
      · cases hread
    · unfold Piece.nextComment at hread
      split at hread
      · split at hread <;> cases hread
      · cases hread
    · split at hread
      · unfold Piece.nextDoctype at hread
        split at hread
        · split at hread
          · simp only at hread
            split at hread <;> cases hread
          · cases hread
        · cases hread
      · cases hread
    · cases hread
    · unfold Piece.nextInstruction at hread
      split at hread
      · split at hread
        · split at hread <;> cases hread
        · cases hread
      · cases hread
    · unfold Piece.nextTag at hread
      split at hread
      · cases hread
      · cases hread
      · split at hread <;> cases hread

/-! ## Contents -/

/-- What is true of all contents that are read, character data and the second forms of
elements included. -/
structure IsSpelled (content : Content) : Prop where
  isReadContent : IsReadContent content
  cdata : ∀ s, content = .cdata s → Text.IsBody "]]>".toList s.toList
  fresh : ∀ e, content = .element e → e.IsFresh

theorem isSpelled_of_adds {piece : Piece} {content : Content} (hp : piece.IsSound)
    (h : piece.Adds content) : IsSpelled content := by
  refine ⟨isReadContent_of_adds hp h, fun s hs => ?_, fun e he => ?_⟩
  · cases h with
    | cdata body =>
      cases hs
      have hbody : Text.IsBody "]]>".toList body := hp
      simpa using hbody
    | instruction content =>
      obtain ⟨target, body, heq⟩ := instructionOf_eq content
      rw [heq] at hs
      cases hs
    | declaration content => cases hs
    | doctype body => cases hs
    | comment body => cases hs
    | text raw s => cases hs
    | start content isEmpty helement => cases hs
  · cases h with
    | start content isEmpty helement =>
      cases he
      obtain ⟨attributes, -, rfl⟩ := elementOf_eq_ok_iff.1 helement
      exact Element.isFresh_ofAttributes _ _
    | instruction content =>
      obtain ⟨target, body, heq⟩ := instructionOf_eq content
      rw [heq] at he
      cases he
    | declaration content => cases he
    | doctype body => cases he
    | comment body => cases he
    | cdata body => cases he
    | text raw s => cases he

/-- What a text asks of the node above it. -/
def Fits (d : Document) (p : NodeId) (content : Content) : Prop :=
  ∀ s, content = .text s → s ≠ "" ∧
    ((Text.trim s.toList).isEmpty = true →
      ∃ e, d.element? p = some e ∧ e.isAnyOf textElements = true)

/-- Whether a text ends here or goes on with markup. -/
def Stops (s : List Char) : Prop := ∀ c, s.head? = some c → c = '<'

theorem stops_dropWhile (s : List Char) : Stops (s.dropWhile (· != '<')) := by
  intro c hc
  have hnot := List.head?_dropWhile_not (· != '<') s
  rw [hc] at hnot
  simpa using hnot

end Markup

namespace Content

def isText : Content → Bool
  | text _ => true
  | _ => false

theorem isText_of_isMisc {c : Content} (h : c.isMisc = true) : c.isText = false := by
  cases c <;> first | rfl | cases h

theorem isText_of_isElement {c : Content} (h : c.isElement = true) : ¬ c.isText = true := by
  intro htext
  cases c with
  | text s => cases h
  | _ => cases htext

end Content

namespace Document

/-- What is known of a document that was read, beside its contents and its top. -/
structure IsOrderly (d : Document) : Prop extends IsNumbered d where
  holder : d.HoldsInElements
  fits : ∀ j p, d.parent j = some p → Markup.Fits d p (d.content j)
  apart : ∀ p, ((d.children p).map fun c => (d.content c).isText).IsChain fun x y =>
    ¬ (x = true ∧ y = true)

variable {d : Document} {p q : NodeId} {content : Content}

theorem fits_append (hq : q < d.size) {c : Content} (h : Markup.Fits d q c) :
    Markup.Fits (d.append p content).1 q c := by
  intro s hs
  obtain ⟨hne, hblank⟩ := h s hs
  refine ⟨hne, fun hempty => ?_⟩
  obtain ⟨e, he, hnames⟩ := hblank hempty
  refine ⟨e, ?_, hnames⟩
  rw [element?, content_append, if_neg (Nat.ne_of_lt hq)]
  exact he

theorem IsOrderly.empty : Document.empty.IsOrderly where
  toIsNumbered := .empty
  holder j p hp := by
    match j with
    | 0 => cases hp
    | j + 1 => cases hp
  fits j p hp := by
    match j with
    | 0 => cases hp
    | j + 1 => cases hp
  apart p := by
    match p with
    | 0 => exact .nil
    | p + 1 => exact .nil

/-- A node may be added below the last one or a node above it, a text not behind
another. -/
theorem IsOrderly.append (h : d.IsOrderly) {last : Nat} (hlast : d.size = last + 1)
    (hp : p = last ∨ d.IsAbove p last) (hholder : p = root ∨ d.isElement p = true)
    (hfits : Markup.Fits d p content)
    (hapart : ∀ x, (d.children p).getLast? = some x →
      ¬ ((d.content x).isText = true ∧ content.isText = true)) :
    (d.append p content).1.IsOrderly := by
  have hplt : p < d.size := by
    rw [hlast]
    rcases hp with rfl | hp
    · exact Nat.lt_succ_self p
    · exact Nat.lt_succ_of_lt (h.lt_of_isAbove hp)
  have hkept : ∀ q, (d.children q).map (fun c => ((d.append p content).1.content c).isText) =
      (d.children q).map fun c => (d.content c).isText := by
    intro q
    refine List.map_congr_left fun c hc => ?_
    have hlt := lt_size_of_parent ((h.isForest.mem_children_iff q c).1 hc)
    rw [content_append, if_neg (Nat.ne_of_lt hlt)]
  refine ⟨h.toIsNumbered.append content hlast hp, fun j q hq => ?_, fun j q hq => ?_,
    fun q => ?_⟩
  · rw [parent_append h.isForest hplt] at hq
    have hold : q < d.size ∧ (q = root ∨ d.isElement q = true) := by
      by_cases hj : j = d.size
      · rw [if_pos hj] at hq
        cases hq
        exact ⟨hplt, hholder⟩
      · rw [if_neg hj] at hq
        exact ⟨Nat.lt_trans (h.parent_lt hq) (lt_size_of_parent hq), h.holder j q hq⟩
    exact hold.2.imp_right (isElement_append p content hold.1).trans
  · rw [parent_append h.isForest hplt] at hq
    rw [content_append]
    by_cases hj : j = d.size
    · rw [if_pos hj] at hq ⊢
      cases hq
      exact fits_append hplt hfits
    · rw [if_neg hj] at hq ⊢
      exact fits_append (Nat.lt_trans (h.parent_lt hq) (lt_size_of_parent hq)) (h.fits j q hq)
  · rw [children_append h.isForest hplt]
    split
    · rw [List.map_append, hkept, List.isChain_append]
      refine ⟨h.apart p, .singleton _, fun x hx y hy => ?_⟩
      rw [List.getLast?_map] at hx
      obtain ⟨c, hc, rfl⟩ := Option.map_eq_some_iff.1 hx
      obtain rfl : content.isText = y := by
        simpa [content_append] using hy
      exact hapart c hc
    · rw [hkept]
      exact h.apart q

end Document

namespace Markup

open Document (root)

/-! ## What reading keeps -/

namespace Builder

/-- The open elements, and the document above them. -/
def places (b : Builder) : List NodeId := b.pending.map (·.1) ++ [root]

/-- What is known while `s` is left to be read. -/
structure IsGrown (b : Builder) (s : List Char) : Prop where
  sound : b.IsSound IsSpelled
  orderly : b.document.IsOrderly
  path : b.places.IsChain fun x y => b.document.parent x = some y
  tip : ∀ n, b.document.size = n + 1 → b.place = n ∨ b.document.IsAbove b.place n
  stops : ∀ x, (b.document.children b.place).getLast? = some x →
    (b.document.content x).isText = true → Stops s

namespace IsGrown

variable {b b' : Builder} {s s' : List Char}

theorem empty (s : List Char) : empty.IsGrown s where
  sound := .empty ⟨⟨trivial, nofun⟩, nofun, nofun⟩
  orderly := .empty
  path := .singleton _
  tip n hn := .inl (Nat.succ.inj hn)
  stops x hx := by cases hx

theorem holder (h : b.IsGrown s) : b.place = root ∨ b.document.isElement b.place = true := by
  have hpending := h.sound.pending
  rw [place]
  split
  · next id name rest heq => exact .inr (hpending (id, name) (by rw [heq]; simp))
  · exact .inl rfl

theorem last (h : b.IsGrown s) : ∃ n, b.document.size = n + 1 :=
  Nat.exists_eq_add_one_of_ne_zero (Nat.ne_of_gt h.sound.rooted.size_pos)

section Appending

variable (h : b.IsGrown s) (content : Content)
include h

theorem parent_append (j : NodeId) : (b.append content).document.parent j =
    if j = b.document.size then some b.place else b.document.parent j :=
  Document.parent_append h.orderly.isForest h.sound.place_lt_size content j

theorem children_append (j : NodeId) : (b.append content).document.children j =
    if j = b.place then b.document.children b.place ++ [b.document.size]
    else b.document.children j :=
  Document.children_append h.orderly.isForest h.sound.place_lt_size content j

theorem orderly_append (hfits : Fits b.document b.place content)
    (hapart : content.isText = true → ¬ Stops s) : (b.append content).document.IsOrderly := by
  obtain ⟨n, hn⟩ := h.last
  refine h.orderly.append hn (h.tip n hn) h.holder hfits fun x hx htexts => ?_
  exact hapart htexts.2 (h.stops x hx htexts.1)

theorem path_append :
    b.places.IsChain fun x y => (b.append content).document.parent x = some y := by
  refine h.path.imp fun x y hxy => ?_
  rw [h.parent_append, if_neg (Nat.ne_of_lt (Document.lt_size_of_parent hxy)), hxy]

theorem isAbove_append : (b.append content).document.IsAbove b.place b.document.size :=
  Document.isAbove_of_parent (by rw [h.parent_append, if_pos rfl])

/-- The new node is the last child. -/
theorem content_of_getLast?_append {x : NodeId}
    (hx : ((b.append content).document.children b.place).getLast? = some x) :
    (b.append content).document.content x = content := by
  rw [h.children_append, if_pos rfl, List.getLast?_concat] at hx
  cases hx
  exact (Document.content_append ..).trans (if_pos rfl)

theorem append (hfits : Fits b.document b.place content)
    (hapart : content.isText = true → ¬ Stops s) (hspelled : IsSpelled content)
    (hroot : content ≠ .root) (htop : b.atTop = true → content.isMisc = true)
    (hstops : content.isText = true → Stops s') : (b.append content).IsGrown s' where
  sound := h.sound.append hspelled hroot htop
  orderly := h.orderly_append content hfits hapart
  path := h.path_append content
  tip n hn := by
    obtain rfl : b.document.size = n :=
      Nat.succ.inj ((Document.size_append b.document b.place content).symm.trans hn)
    exact .inr (h.isAbove_append content)
  stops x hx htext := by
    rw [h.content_of_getLast?_append content hx] at htext
    exact hstops htext

end Appending

/-! ## Pieces -/

theorem addText (h : b.IsGrown s) {raw : List Char} (hraw : raw ≠ []) (hs : ¬ Stops s)
    (hs' : Stops s') (hadd : b.addText raw = .ok b') : b'.IsGrown s' := by
  rw [Builder.addText] at hadd
  cases hu : resolve raw with
  | error fault =>
    rw [hu] at hadd
    cases hadd
  | ok u =>
    rw [hu] at hadd
    simp only [Except.mapError, bind, Except.bind] at hadd
    have hne : String.ofList u ≠ "" := fun hempty => by
      refine ne_nil_of_resolve hu hraw ?_
      rw [← String.toList_ofList (l := u), hempty]
      rfl
    have hspelled : IsSpelled (.text (String.ofList u)) := by
      refine ⟨⟨trivial, fun _ he => ?_⟩, fun _ hs => ?_, fun _ he => ?_⟩
      · cases he
      · cases hs
      · cases he
    have hleft : b.IsGrown s' := ⟨h.sound, h.orderly, h.path, h.tip, fun _ _ _ => hs'⟩
    split at hadd
    · next hblank =>
      cases hadd
      cases he : b.document.element? b.place with
      | none => exact hleft
      | some e =>
        simp only
        split
        · next hshown =>
          refine h.append _ (fun s heq => ?_) (fun _ => hs) hspelled (by simp)
            (fun htop => by simp [h.sound.atTop_eq_false he] at htop) fun _ => hs'
          cases heq
          exact ⟨hne, fun _ => ⟨e, he, hshown⟩⟩
        · exact hleft
    · next hvisible =>
      split at hadd
      · cases hadd
      · next htop =>
        cases hadd
        refine h.append _ (fun s heq => ?_) (fun _ => hs) hspelled (by simp)
          (fun htop' => absurd htop' htop) fun _ => hs'
        cases heq
        rw [String.toList_ofList]
        exact ⟨hne, fun hblank => absurd hblank hvisible⟩

theorem places_eq (b : Builder) : ∃ above, b.places = b.place :: above := by
  unfold places place
  cases b.pending with
  | nil => exact ⟨_, rfl⟩
  | cons x rest => exact ⟨_, rfl⟩

theorem addStart (h : b.IsGrown s) {content : List Char} {isEmpty : Bool}
    (hadd : b.addStart content isEmpty = .ok b') : b'.IsGrown s' := by
  have hspelled : ∀ e, elementOf content = .ok e → IsSpelled (.element e) := fun e he =>
    @isSpelled_of_adds (.start content isEmpty) _ trivial (.start content isEmpty he)
  have hsound := h.sound.addStart hspelled hadd
  obtain ⟨-, e, -, rfl⟩ := addStart_eq_ok_iff.1 hadd
  have horderly := h.orderly_append (.element e) nofun nofun
  have hpath := h.path_append (.element e)
  have hsize : ∀ {n}, (b.append (.element e)).document.size = n + 1 → b.document.size = n :=
    fun hn => Nat.succ.inj ((Document.size_append b.document b.place (.element e)).symm.trans hn)
  cases isEmpty with
  | true =>
    refine ⟨hsound, horderly, hpath, fun n hn => ?_, fun x hx htext => ?_⟩
    · obtain rfl := hsize hn
      exact .inr (h.isAbove_append (.element e))
    · have hcontent : (b.document.append b.place (.element e)).1.content x = .element e :=
        h.content_of_getLast?_append (.element e) hx
      simp only [hcontent] at htext
      cases htext
  | false =>
    refine ⟨hsound, horderly, ?_, fun n hn => .inl (hsize hn), fun x hx => ?_⟩
    · have hnew : (b.document.size :: b.places).IsChain fun x y =>
          (b.append (.element e)).document.parent x = some y := by
        obtain ⟨above, habove⟩ := places_eq b
        rw [habove] at hpath ⊢
        refine hpath.cons_cons ?_
        rw [h.parent_append, if_pos rfl]
      exact hnew
    · -- the new element has no children yet
      have hchildren : (b.append (.element e)).document.children b.document.size = [] := by
        rw [h.children_append, if_neg (Nat.ne_of_gt h.sound.place_lt_size),
          Document.children_of_size_le (Nat.le_refl _)]
      have hx' : ((b.append (.element e)).document.children b.document.size).getLast? = some x := hx
      rw [hchildren] at hx'
      cases hx'

theorem addFinish (h : b.IsGrown s) {name : List Char}
    (hadd : b.addFinish name = .ok b') : b'.IsGrown s' := by
  rw [Builder.addFinish] at hadd
  split at hadd
  · cases hadd
  · next x expected pending hpending =>
    split at hadd
    · cases hadd
      have hplace : b.place = x := by rw [place, hpending]
      have hplaces : b.places = x :: places { b with pending } := by
        rw [places, hpending]
        rfl
      obtain ⟨above, habove⟩ := places_eq { b with pending }
      have hpath := h.path
      rw [hplaces, habove, List.isChain_cons_cons, ← habove] at hpath
      obtain ⟨hparent, hpath⟩ := hpath
      have hup := Document.isAbove_of_parent hparent
      have htip : ∀ n, b.document.size = n + 1 → x = n ∨ b.document.IsAbove x n := by
        rw [← hplace]
        exact h.tip
      refine ⟨h.sound.closed hpending, h.orderly, hpath, fun n hn => .inr ?_, fun y hy htext => ?_⟩
      · rcases htip n hn with rfl | hxn
        · exact hup
        · exact hup.trans hxn
      · -- the last child is the element that is closed
        have hy' : (b.document.children (place { b with pending })).getLast? = some y := hy
        obtain ⟨n, hn⟩ := h.last
        have hsiblings := h.orderly.isForest.mem_children_iff (place { b with pending })
        have hmem := (hsiblings x).2 hparent
        obtain ⟨front, hfront⟩ := List.getLast?_eq_some_iff.1 hy'
        have hyparent := (hsiblings y).1 (by rw [hfront]; simp)
        have hxy : x = y := by
          have hsorted := h.orderly.pairwise_children (place { b with pending })
          rw [hfront] at hmem hsorted
          rcases List.mem_append.1 hmem with hx | hx
          · have hlt := (List.pairwise_append.1 hsorted).2.2 x hx y (by simp)
            have hbehind := h.orderly.lt_of_siblings hparent hyparent hlt
              ((htip n hn).imp_left Eq.symm)
            have hysize := Document.lt_size_of_parent hyparent
            rw [hn] at hysize
            exact absurd hbehind (Nat.not_lt_of_le (Nat.le_of_lt_succ hysize))
          · exact List.mem_singleton.1 hx
        have helement := h.sound.pending (x, expected) (by rw [hpending]; simp)
        rw [hxy] at helement
        exact absurd htext (Content.isText_of_isElement helement)
    · cases hadd

theorem add (h : b.IsGrown s) {c : Char} {cs : List Char} {piece : Piece} (hs : s = c :: cs)
    (hnext : Piece.next c cs = .ok (piece, s')) (hadd : b.add piece = .ok b') :
    b'.IsGrown s' := by
  have hspelled : ∀ content, piece.Adds content → IsSpelled content := fun _ =>
    isSpelled_of_adds (Piece.isSound_of_next hnext)
  have hleaf : ∀ content, piece.Adds content → content.isText = false → content ≠ .root →
      (b.atTop = true → content.isMisc = true) → (b.append content).IsGrown s' := by
    intro content hadds htext hroot htop
    refine h.append _ (fun s hs => ?_) (fun htext' => ?_) (hspelled content hadds) hroot htop
      fun htext' => ?_
    · rw [hs] at htext
      cases htext
    · rw [htext] at htext'
      cases htext'
    · rw [htext] at htext'
      cases htext'
  cases piece with
  | declaration content =>
    cases hadd
    exact hleaf _ (.declaration content) rfl (by simp) fun _ => rfl
  | instruction content =>
    cases hadd
    obtain ⟨target, body, heq⟩ := instructionOf_eq content
    have hmisc : (instructionOf content).isMisc = true := by
      rw [heq]
      rfl
    rw [addInstruction_eq]
    exact hleaf _ (.instruction content) (Content.isText_of_isMisc hmisc) (by simp [heq])
      fun _ => hmisc
  | doctype body =>
    cases hadd
    exact hleaf _ (.doctype body) rfl (by simp) fun _ => rfl
  | comment body =>
    cases hadd
    exact hleaf _ (.comment body) rfl (by simp) fun _ => rfl
  | cdata body =>
    rw [Builder.add] at hadd
    split at hadd
    · cases hadd
    · next htop =>
      cases hadd
      exact hleaf _ (.cdata body) rfl (by simp) fun htop' => absurd htop' htop
  | text raw =>
    have hc : c ≠ '<' := by
      rintro rfl
      exact next_ne_text _ _ _ hnext
    rw [next_of_ne hc] at hnext
    cases hnext
    refine h.addText (by simp) (fun hstops => hc (hstops c ?_)) (stops_dropWhile cs) hadd
    rw [hs]
    rfl
  | start content isEmpty => exact h.addStart hadd
  | finish name => exact h.addFinish hadd

end IsGrown
end Builder

theorem isGrown_of_reads {b b' : Builder} {s : List Char} (h : Reads b s b')
    (hb : b.IsGrown s) : b'.IsGrown [] := by
  induction h with
  | nil => exact hb
  | cons hnext hadd _ ih => exact ih (hb.add rfl hnext hadd)

theorem isOrderly_of_read {s : String} {d : Document} (h : read s = .ok d) :
    d.IsOrderly ∧ ∀ j, IsSpelled (d.content j) := by
  obtain ⟨b, hb, -, -, rfl⟩ := read_eq_ok_iff.1 h
  have hgrown := isGrown_of_reads hb (.empty _)
  exact ⟨hgrown.orderly, hgrown.sound.contents⟩

theorem isCoherent_of_read {s : String} {d : Document} (h : read s = .ok d) : d.IsCoherent := by
  obtain ⟨hrooted, hcontents, -⟩ := of_read h
  refine ⟨⟨hrooted, fun j e he => ?_⟩, fun j e he => ?_⟩
  · have hread := (hcontents j).2 e (Content.eq_element_of_element? he)
    exact ⟨trivial, fun _ _ => trivial, hread.nodup⟩
  · exact ((isOrderly_of_read h).2 j).fresh e (Content.eq_element_of_element? he)

end Markup
end SvgCompact
