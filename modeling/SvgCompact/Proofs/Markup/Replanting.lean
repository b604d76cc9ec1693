import SvgCompact.Proofs.Markup.Layout
import SvgCompact.Proofs.Markup.RoundTrip

/-!
What printed markup is read as.

Reading compact markup plants its trees again, but for blank texts where they cannot be
seen; a document is printed as compact markup of its trees, laid out: `read_print_eq`.
-/

namespace SvgCompact
namespace Markup

/-! ## Reading -/

/-- Whether blank text is kept below a node. -/
def showsBlanks (c : Content) : Bool :=
  match c.element? with
  | some e => e.isAnyOf textElements
  | none => false

/-- Whether blank text is kept at the place where the next piece goes. -/
def Builder.shows (b : Builder) : Bool :=
  showsBlanks (b.document.content b.place)

/-- Whether a text is there again when it is read. -/
def isKept (shown : Bool) (s : String) : Bool :=
  !s.isEmpty && (shown || !(Text.trim s.toList).isEmpty)

/-- What the text of an instruction is read as. -/
def instructionRead (content : List Char) : Content :=
  match instructionPiece content with
  | .declaration after => .instruction "xml" (String.ofList (declarationBody after))
  | _ => instructionOf content

/-- What a printed leaf is read as. -/
def reread : Content → Content
  | .instruction target body =>
    instructionRead (target.toList ++ if body.isEmpty then [] else ' ' :: body.toList)
  | .doctype body => .doctype (String.ofList (Text.trim body.toList))
  | c => c

end Markup

namespace Branches

open Markup

/-- A node as it is read, if at all, in front of a row. -/
def restored (options : PrintOptions) (shown : Bool) (c : Content) (below rest : Branches) :
    Branches :=
  match c with
  | .element e => node (.element (reprinted options e)) below rest
  | .text s => if isKept shown s then node (.text s) nil rest else rest
  | c => node (reread c) nil rest

/-- The trees that compact markup is read as. -/
def readBack (options : PrintOptions) (shown : Bool) : Branches → Branches
  | nil => nil
  | node c below rest =>
    restored options shown c (below.readBack options (showsBlanks c))
      (rest.readBack options shown)

/-- Whether a text is in front. -/
def startsWithText : Branches → Bool
  | nil => false
  | node c _ _ => c.isText

/-- Whether no two texts are neighbours. -/
def IsApart : Branches → Prop
  | nil => True
  | node c below rest =>
    ¬ (c.isText = true ∧ rest.startsWithText = true) ∧ below.IsApart ∧ rest.IsApart

end Branches

namespace Markup

def Builder.plant (f : Branches) (b : Builder) : Builder :=
  { b with document := f.plant b.place b.document }

section Leaves

variable {b b' : Builder} {s : List Char}

theorem reads_kept (u : String) (hstops : Stops s)
    (htop : b.atTop = true → (Text.trim u.toList).isEmpty = true)
    (h : Reads (if isKept b.shows u then b.append (.text u) else b) s b') :
    Reads b (printLeaf (.text u) ++ s) b' := by
  have hresolve := (Resolves.flatMap Resolves.escapeText u.toList).resolve_eq
  have hlt := notMem_escapeText u.toList
  show Reads b (u.toList.flatMap escapeText ++ s) b'
  cases hraw : u.toList.flatMap escapeText with
  | nil =>
    rw [hraw, Resolves.nil.resolve_eq] at hresolve
    have hempty : u.isEmpty = true := by
      rw [String.isEmpty_iff, ← String.toList_eq_nil_iff]
      exact (Except.ok.inj hresolve).symm
    rw [isKept, hempty] at h
    exact h
  | cons c cs =>
    rw [hraw, List.mem_cons, not_or] at hlt
    have hcs : ∀ x ∈ cs, (x != '<') = true := fun x hx => by
      simpa using ne_of_mem_of_not_mem hx hlt.2
    have hnext : Piece.next c (cs ++ s) = .ok (.text (c :: cs), s) := by
      rw [next_of_ne (Ne.symm hlt.1), List.takeWhile_append_of_pos hcs,
        List.dropWhile_append_of_pos hcs, hstops.takeWhile, hstops.dropWhile, List.append_nil]
    have hne : u.isEmpty = false := by
      rw [← Bool.not_eq_true, String.isEmpty_iff, ← String.toList_eq_nil_iff]
      exact ne_nil_of_resolve hresolve (by rw [hraw]; simp)
    rw [hraw] at hresolve
    refine .cons hnext ?_ h
    rw [Builder.add, Builder.addText, hresolve, isKept, hne]
    simp only [Except.mapError, bind, Except.bind, Bool.not_false, Bool.true_and]
    cases hblank : (Text.trim u.toList).isEmpty with
    | true =>
      simp only [if_true, Bool.not_true, Bool.or_false, String.ofList_toList]
      rfl
    | false =>
      have hopen : ¬ b.atTop = true := fun h => by
        rw [htop h] at hblank
        cases hblank
      simp [hopen]

theorem add_instructionPiece (b : Builder) (content : List Char) :
    b.add (instructionPiece content) = .ok (b.append (instructionRead content)) := by
  rcases instructionPiece_cases content with ⟨after, hpiece⟩ | hpiece
  · rw [instructionRead, hpiece]
    rfl
  · rw [instructionRead, hpiece]
    exact congrArg Except.ok (addInstruction_eq b content)

theorem instructionRead_eq (content : List Char) :
    ∃ target body, instructionRead content = .instruction target body := by
  rcases instructionPiece_cases content with ⟨after, hpiece⟩ | hpiece
  · exact ⟨_, _, by rw [instructionRead, hpiece]⟩
  · rw [instructionRead, hpiece]
    exact instructionOf_eq content

/-- A leaf is read as one of its kind. -/
theorem kind_reread {c : Content} (helement : c.isElement = false) :
    (reread c).element? = none ∧ (reread c).characters? = c.characters? := by
  cases c with
  | element e => cases helement
  | instruction target body =>
    obtain ⟨t, b, heq⟩ := instructionRead_eq
      (target.toList ++ if body.isEmpty then [] else ' ' :: body.toList)
    rw [reread, heq]
    exact ⟨rfl, rfl⟩
  | _ => exact ⟨rfl, rfl⟩

theorem reads_leaf {c : Content} (hc : IsShown c) (helement : c.isElement = false)
    (htext : c.isText = false) (htop : b.atTop = true → c.characters? = none)
    (h : Reads (b.append (reread c)) s b') : Reads b (printLeaf c ++ s) b' := by
  cases c with
  | root => exact absurd rfl hc.ne_root
  | element e => cases helement
  | text u => cases htext
  | comment body =>
    refine .cons (next_comment hc.isPrintable.isWritable s) ?_ h
    rw [Builder.add, String.ofList_toList]
    rfl
  | cdata body =>
    refine .cons (next_cdata (hc.cdata body rfl) s) ?_ h
    have hopen : ¬ b.atTop = true := fun h => by cases htop h
    rw [Builder.add, if_neg hopen, String.ofList_toList]
    rfl
  | instruction target body =>
    have hbody := hc.isPrintable.isWritable
    rw [IsWritable, List.cons_append] at hbody
    rw [Accepts.printLeaf_instruction]
    exact .cons (next_of_read (read_instruction hbody s) (List.suffix_append _ s))
      (add_instructionPiece b _) h
  | doctype body => exact .cons (next_doctype hc.isPrintable s) rfl h

end Leaves

/-! ## Trees -/

section Trees

variable {b b' : Builder} {s : List Char} {options : PrintOptions}

theorem place_append_lt (c : Content) (hplace : b.place < b.document.size) :
    (b.append c).place < (b.append c).document.size :=
  Document.lt_size_append hplace b.place c

theorem shows_plant (f : Branches) (hplace : b.place < b.document.size) :
    (b.plant f).shows = b.shows := by
  show showsBlanks ((b.plant f).document.content b.place) = b.shows
  rw [Builder.plant, Branches.content_plant f b.place hplace]
  rfl

/-- Whether compact markup, met inside an element, is read as its trees again. -/
def ReadsBack (options : PrintOptions) (f : Branches) : Prop :=
  ∀ {b b' : Builder} {s : List Char}, b.pending ≠ [] → b.hasRoot = true →
    b.place < b.document.size → Stops s →
    Reads (b.plant (f.readBack options b.shows)) s b' → Reads b (f.write options ++ s) b'

/-- An element is read as its tags and, between them, what is below it. -/
theorem reads_element {e : Element} {below : Branches} (he : e.IsPlain)
    (hbelow : ReadsBack options below) (hfirst : (b.atTop && b.hasRoot) = false)
    (h : Reads ⟨(below.readBack options (e.isAnyOf textElements)).plant b.document.size
      (b.document.append b.place (.element (reprinted options e))).1, b.pending, true⟩ s b') :
    Reads b (Branches.writeElement options e below.isNil (below.write options) ++ s) b' := by
  have hstart : ∀ isEmpty, b.addStart (printHead options e) isEmpty =
      .ok ⟨(b.document.append b.place (.element (reprinted options e))).1,
        if isEmpty then b.pending else (b.document.size, e.name.full.toList) :: b.pending,
        true⟩ := by
    intro isEmpty
    rw [← tagName_printHead he options]
    exact Builder.addStart_eq_ok_iff.2 ⟨hfirst, _, elementOf_printHead he options, rfl⟩
  rw [Branches.writeElement]
  split
  · next hempty =>
    rw [Bool.and_eq_true] at hempty
    cases below with
    | nil =>
      rw [List.append_assoc]
      exact .cons (next_emptyTag he options s) (hstart true) h
    | node c inner rest => cases hempty.1
  · -- the start tag opens the element, and the end tag closes it again
    have hsplit : ('<' :: printHead options e ++ '>' ::
        (below.write options ++ ('<' :: '/' :: e.name.full.toList ++ ['>']))) ++ s =
        '<' :: (printHead options e ++ '>' ::
          (below.write options ++ ('<' :: '/' :: e.name.full.toList ++ '>' :: s))) := by simp
    have hshows : Builder.shows ⟨(b.document.append b.place (.element (reprinted options e))).1,
        (b.document.size, e.name.full.toList) :: b.pending, true⟩ =
          e.isAnyOf textElements := by
      show showsBlanks ((b.document.append _ _).1.content b.document.size) = _
      rw [Document.content_append, if_pos rfl]
      exact isAnyOf_reprinted options e textElements
    rw [hsplit]
    refine .cons (next_startTag he options _) (hstart false) ?_
    refine hbelow (by simp) rfl (Document.size_lt_size_append _ _ _) (stops_cons _) ?_
    refine .cons (next_endTag he.name.toIsWord s) ?_ h
    simp only [Bool.false_eq_true, if_false, hshows]
    simp [Builder.add, Builder.addFinish, Builder.plant, Builder.place]

theorem shows_append (c : Content) (hplace : b.place < b.document.size) :
    (b.append c).shows = b.shows :=
  shows_plant (.node c .nil .nil) hplace

theorem stops_writeContent {c : Content} (hc : IsShown c) (htext : c.isText = false)
    (empty : Bool) (inner s : List Char) :
    Stops (Branches.writeContent options empty inner c ++ s) := by
  cases c with
  | root => exact absurd rfl hc.ne_root
  | text u => cases htext
  | element e =>
    rw [Branches.writeContent, Branches.writeElement]
    split <;> exact stops_cons _
  | _ => exact stops_cons _

theorem stops_write {f : Branches} (hshown : f.Forall fun c _ => IsShown c)
    (htext : f.startsWithText = false) (hstops : Stops s) : Stops (f.write options ++ s) := by
  cases f with
  | nil => exact hstops
  | node c below rest =>
    rw [Branches.write, List.append_assoc]
    exact stops_writeContent hshown.1 htext _ _ _

/-- Compact markup of trees without neighbouring texts is read as the trees again. -/
theorem readsBack {f : Branches} (hshown : f.Forall fun c _ => IsShown c) (hapart : f.IsApart) :
    ReadsBack options f := by
  induction f with
  | nil => exact fun _ _ _ _ h => h
  | node c below rest ihBelow ihRest =>
    intro b b' s hopen hroot hplace hstops h
    obtain ⟨hc, hbelow, hrest⟩ := hshown
    have hread : ∀ b₁ : Builder, b₁.pending = b.pending → b₁.hasRoot = true →
        b₁.place < b₁.document.size → b₁.shows = b.shows →
        Reads (b₁.plant (rest.readBack options b.shows)) s b' →
        Reads b₁ (rest.write options ++ s) b' := by
      intro b₁ hpending hroot₁ hplace₁ hshows h₁
      refine ihRest hrest hapart.2.2 (hpending ▸ hopen) hroot₁ hplace₁ hstops ?_
      rwa [hshows]
    have htop : b.atTop = false := by
      rwa [Builder.atTop, List.isEmpty_eq_false_iff]
    have hleaf : c.isElement = false → c.isText = false →
        Branches.readBack options b.shows (.node c below rest) =
          .node (reread c) .nil (rest.readBack options b.shows) →
        Reads b (printLeaf c ++ (rest.write options ++ s)) b' := by
      intro helement htext heq
      rw [heq] at h
      refine reads_leaf hc helement htext (fun h => by rw [htop] at h; cases h) ?_
      exact hread _ rfl hroot (place_append_lt _ hplace) (shows_append _ hplace) h
    rw [Branches.write, List.append_assoc]
    cases c with
    | element e =>
      have hfirst : (b.atTop && b.hasRoot) = false := by rw [htop, Bool.false_and]
      refine reads_element (hc.isPrintable.isPlain e rfl) (ihBelow hbelow hapart.2.1) hfirst ?_
      have hlt := Branches.lt_size_plant (below.readBack options (e.isAnyOf textElements))
        b.document.size (Document.lt_size_append hplace b.place (.element (reprinted options e)))
      refine hread _ rfl rfl hlt ?_ ?_
      · exact shows_plant (.node (.element (reprinted options e))
          (below.readBack options (e.isAnyOf textElements)) .nil) hplace
      · rw [Builder.plant, hroot, Branches.readBack, Branches.restored, Branches.plant] at h
        exact h
    | text u =>
      have hstops' : Stops (rest.write options ++ s) :=
        stops_write hrest (Bool.eq_false_iff.2 fun htext => hapart.1 ⟨rfl, htext⟩) hstops
      refine reads_kept u hstops' (fun h => by rw [htop] at h; cases h) ?_
      rw [Branches.readBack, Branches.restored] at h
      split
      · next hkept =>
        rw [if_pos hkept] at h
        exact hread _ rfl hroot (place_append_lt _ hplace) (shows_append _ hplace) h
      · next hlost =>
        rw [if_neg hlost] at h
        exact hread _ rfl hroot hplace rfl h
    | root => exact absurd rfl hc.ne_root
    | comment body => exact hleaf rfl rfl rfl
    | cdata body => exact hleaf rfl rfl rfl
    | instruction target body => exact hleaf rfl rfl rfl
    | doctype body => exact hleaf rfl rfl rfl

end Trees

end Markup

/-! ## Documents -/

namespace Branches

open Markup

/-- Each node of a row as markup. -/
def writeEach (options : PrintOptions) : Branches → List (List Char)
  | nil => []
  | node c below rest =>
    writeContent options below.isNil (below.write options) c :: rest.writeEach options

/-- Whether the row can stand at the top of a document, perhaps behind a root element: it
holds one, or none if it is there already, and comments and the like. -/
def IsTop (hasRoot : Bool) : Branches → Prop
  | nil => hasRoot = true
  | node c _ rest =>
    (c.isMisc = true ∧ rest.IsTop hasRoot) ∨
      (c.isElement = true ∧ hasRoot = false ∧ rest.IsTop true)

end Branches

namespace Markup

open Document (root)

section Top

variable {b : Builder} {options : PrintOptions}

def separator (options : PrintOptions) : List Char :=
  if options.pretty then ['\n'] else []

theorem reads_separator {b' : Builder} {s : List Char} (hshows : b.shows = false)
    (hstops : Stops s) (h : Reads b s b') : Reads b (separator options ++ s) b' := by
  rw [separator]
  split
  · refine reads_kept "\n" hstops (fun _ => by decide) ?_
    rw [hshows, if_neg (by decide)]
    exact h
  · exact h

/-- What stands behind a node at the top. -/
theorem intercalate_cons (sep x : List Char) (xs : List (List Char)) : sep.intercalate (x :: xs) =
    x ++ if xs.isEmpty then [] else sep ++ sep.intercalate xs := by
  cases xs with
  | nil => simp
  | cons y ys =>
    rw [List.intercalate_cons_of_ne_nil (by simp)]
    simp

theorem stops_intercalate (options : PrintOptions) {f : Branches}
    (hshown : f.Forall fun c _ => IsShown c) (htext : f.startsWithText = false) (sep : List Char) :
    Stops (sep.intercalate (f.writeEach options)) := by
  cases f with
  | nil => exact fun c hc => by cases hc
  | node c below rest =>
    rw [Branches.writeEach, intercalate_cons]
    exact stops_writeContent hshown.1 htext _ _ _

theorem startsWithText_of_isTop {f : Branches} {hasRoot : Bool} (h : f.IsTop hasRoot) :
    f.startsWithText = false := by
  cases f with
  | nil => rfl
  | node c below rest =>
    rcases h with ⟨hmisc, -⟩ | ⟨helement, -⟩
    · exact Content.isText_of_isMisc hmisc
    · exact Bool.eq_false_iff.2 (Content.isText_of_isElement helement)

theorem reads_top {f : Branches} (hshown : f.Forall fun c _ => IsShown c) (hapart : f.IsApart)
    (htop : f.IsTop b.hasRoot) (hpending : b.pending = []) (hshows : b.shows = false)
    (hplace : b.place < b.document.size) :
    Reads b ((separator options).intercalate (f.writeEach options))
      ⟨(f.readBack options false).plant b.place b.document, [], true⟩ := by
  induction f generalizing b with
  | nil =>
    obtain ⟨document, pending, hasRoot⟩ := b
    simp only at hpending
    subst hpending
    rw [show hasRoot = true from htop]
    exact .nil _
  | node c below rest ihBelow ihRest =>
    obtain ⟨hc, hbelow, hrest⟩ := hshown
    have hbehind : ∀ b₁ : Builder, rest.IsTop b₁.hasRoot → b₁.pending = [] → b₁.shows = false →
        b₁.place < b₁.document.size →
        Reads b₁ (if (rest.writeEach options).isEmpty then []
            else separator options ++ (separator options).intercalate (rest.writeEach options))
          ⟨(rest.readBack options false).plant b₁.place b₁.document, [], true⟩ := by
      intro b₁ htop₁ hpending₁ hshows₁ hplace₁
      have hread := ihRest hrest hapart.2.2 htop₁ hpending₁ hshows₁ hplace₁
      split
      · next hempty =>
        rw [List.isEmpty_iff] at hempty
        rwa [hempty] at hread
      · exact reads_separator hshows₁
          (stops_intercalate options hrest (startsWithText_of_isTop htop₁) _) hread
    rw [Branches.writeEach, intercalate_cons]
    have hatTop : b.atTop = true := List.isEmpty_iff.2 hpending
    rcases htop with ⟨hmisc, htop⟩ | ⟨helement, hno, htop⟩
    · have helement := Content.isElement_of_isMisc hmisc
      have hback : Branches.readBack options false (.node c below rest) =
          .node (reread c) .nil (rest.readBack options false) := by
        cases c <;> first | rfl | cases hmisc
      rw [Branches.writeContent_of_not_isElement options _ _ helement, hback]
      refine reads_leaf hc helement (Content.isText_of_isMisc hmisc)
        (fun _ => Content.characters?_of_isMisc hmisc) ?_
      exact hbehind _ htop hpending ((shows_append _ hplace).trans hshows)
        (place_append_lt _ hplace)
    · obtain ⟨e, he⟩ := Option.isSome_iff_exists.1 helement
      obtain rfl := Content.eq_element_of_element? he
      have hlt := Branches.lt_size_plant (below.readBack options (e.isAnyOf textElements))
        b.document.size (Document.lt_size_append hplace b.place (.element (reprinted options e)))
      refine reads_element (hc.isPrintable.isPlain e rfl) (readsBack hbelow hapart.2.1)
        (by rw [hno, Bool.and_false]) ?_
      refine hbehind _ htop hpending ?_ hlt
      exact (shows_plant (.node (.element (reprinted options e))
        (below.readBack options (e.isAnyOf textElements)) .nil) hplace).trans hshows

end Top

end Markup

/-! ## Neighbouring texts -/

namespace Branches

open Markup

/-- A node in front of a row.  A text joins one that is first there. -/
def attach (c : Content) (below rest : Branches) : Branches :=
  match c, rest with
  | .text s, node (.text u) inner rest => node (.text (s ++ u)) inner rest
  | c, rest => node c below rest

/-- The nodes with neighbouring texts joined. -/
def joined : Branches → Branches
  | nil => nil
  | node c below rest => attach c below.joined rest.joined

/-- Either two texts meet, or the node is put in front as it is. -/
theorem attach_cases (c : Content) (below rest : Branches) :
    (∃ s u inner more, c = .text s ∧ rest = node (.text u) inner more ∧
      attach c below rest = node (.text (s ++ u)) inner more) ∨
    (¬ (c.isText = true ∧ rest.startsWithText = true) ∧
      attach c below rest = node c below rest) := by
  unfold attach
  split
  · next s u inner more => exact .inl ⟨s, u, inner, more, rfl, rfl, rfl⟩
  · next hnot =>
    refine .inr ⟨fun h => ?_, rfl⟩
    cases c with
    | text s =>
      cases rest with
      | nil => cases h.2
      | node c' inner more =>
        cases c' with
        | text u => exact hnot s u inner more rfl rfl
        | _ => cases h.2
    | _ => cases h.1

theorem isNil_joined (f : Branches) : f.joined.isNil = f.isNil := by
  cases f with
  | nil => rfl
  | node c below rest =>
    rw [joined]
    rcases attach_cases c below.joined rest.joined with ⟨_, _, _, _, -, -, heq⟩ | ⟨-, heq⟩
    · rw [heq]; rfl
    · rw [heq]; rfl

theorem write_attach (options : PrintOptions) (c : Content) (below rest : Branches) :
    (attach c below rest).write options =
      writeContent options below.isNil (below.write options) c ++ rest.write options := by
  rcases attach_cases c below rest with ⟨s, u, inner, more, rfl, rfl, heq⟩ | ⟨-, heq⟩
  · rw [heq]
    show (s ++ u).toList.flatMap escapeText ++ more.write options =
      s.toList.flatMap escapeText ++ (u.toList.flatMap escapeText ++ more.write options)
    rw [String.toList_append, List.flatMap_append, List.append_assoc]
  · rw [heq, write]

theorem write_joined (options : PrintOptions) (f : Branches) :
    f.joined.write options = f.write options := by
  induction f with
  | nil => rfl
  | node c below rest ihBelow ihRest =>
    rw [joined, write_attach, ihBelow, ihRest, isNil_joined, write]

theorem isApart_attach {c : Content} {below rest : Branches} (hbelow : below.IsApart)
    (hrest : rest.IsApart) : (attach c below rest).IsApart := by
  rcases attach_cases c below rest with ⟨s, u, inner, more, rfl, rfl, heq⟩ | ⟨hnot, heq⟩
  · rw [heq]
    exact hrest
  · rw [heq]
    exact ⟨hnot, hbelow, hrest⟩

theorem isApart_joined (f : Branches) : f.joined.IsApart := by
  induction f with
  | nil => trivial
  | node c below rest ihBelow ihRest => exact isApart_attach ihBelow ihRest

theorem joined_of_isApart {f : Branches} (h : f.IsApart) : f.joined = f := by
  induction f with
  | nil => rfl
  | node c below rest ihBelow ihRest =>
    rw [joined, ihBelow h.2.1, ihRest h.2.2]
    rcases attach_cases c below rest with ⟨s, u, inner, more, rfl, rfl, -⟩ | ⟨-, heq⟩
    · exact absurd ⟨rfl, rfl⟩ h.1
    · exact heq

theorem forall_joined {P : Content → Branches → Prop}
    (htext : ∀ s u inner, P (.text u) inner → P (.text (s ++ u)) inner)
    (hjoined : ∀ c below, P c below → P c below.joined) {f : Branches} (h : f.Forall P) :
    f.joined.Forall P := by
  induction f with
  | nil => trivial
  | node c below rest ihBelow ihRest =>
    have hrest := ihRest h.2.2
    rw [joined]
    rcases attach_cases c below.joined rest.joined with ⟨s, u, inner, more, -, heq', heq⟩ | ⟨-, heq⟩
    · rw [heq]
      rw [heq'] at hrest
      exact ⟨htext s u inner hrest.1, hrest.2⟩
    · rw [heq]
      exact ⟨hjoined c below h.1, ihBelow h.2.1, hrest⟩

/-- At the top there are no texts to join. -/
theorem joined_top (options : PrintOptions) {f : Branches} {hasRoot : Bool}
    (h : f.IsTop hasRoot) :
    f.joined.IsTop hasRoot ∧ f.joined.writeEach options = f.writeEach options := by
  induction f generalizing hasRoot with
  | nil => exact ⟨h, rfl⟩
  | node c below rest ihBelow ihRest =>
    have hc : c.isText = false := startsWithText_of_isTop h
    have heq : (node c below rest).joined = node c below.joined rest.joined := by
      rw [joined]
      rcases attach_cases c below.joined rest.joined with ⟨s, u, inner, more, rfl, -, -⟩ | ⟨-, heq⟩
      · cases hc
      · exact heq
    rw [heq, writeEach, writeEach, write_joined, isNil_joined]
    rcases h with ⟨hmisc, hrest⟩ | ⟨helement, hno, hrest⟩
    · obtain ⟨htop, hwrite⟩ := ihRest hrest
      exact ⟨.inl ⟨hmisc, htop⟩, congrArg _ hwrite⟩
    · obtain ⟨htop, hwrite⟩ := ihRest hrest
      exact ⟨.inr ⟨helement, hno, htop⟩, congrArg _ hwrite⟩

end Branches

/-! ## Whole documents -/

namespace Markup

open Document (root)

/-- The document that printed markup is read as. -/
def replanted (options : PrintOptions) (d : Document) : Document :=
  (((d.branches (d.children root)).laidOut options 0).joined.readBack options false).plant root
    Document.empty

variable {d : Document}

theorem isTop_branches (hd : d.IsRooted) {r : NodeId} {ids : List NodeId} {hasRoot : Bool}
    (helements : ids.filter d.isElement = if hasRoot then [] else [r])
    (hids : ∀ c ∈ ids, d.parent c = some root)
    (hcharacters : ∀ c ∈ ids, (d.content c).characters? = none) :
    (d.branches ids).IsTop hasRoot := by
  induction ids generalizing hasRoot with
  | nil =>
    cases hasRoot with
    | true =>
      rw [Document.branches_nil]
      rfl
    | false => cases helements
  | cons id rest ih =>
    have hrest : ∀ {behind : Bool}, (rest.filter d.isElement = if behind then [] else [r]) →
        (d.branches rest).IsTop behind := fun h =>
      ih h (fun c hc => hids c (by simp [hc])) fun c hc => hcharacters c (by simp [hc])
    rw [Document.branches_cons hd.isForest]
    cases helement : d.isElement id with
    | true =>
      rw [List.filter_cons_of_pos helement] at helements
      cases hasRoot with
      | true => cases helements
      | false => exact .inr ⟨helement, rfl, hrest (List.cons.inj helements).2⟩
    | false =>
      rw [List.filter_cons_of_neg (by rw [helement]; exact Bool.false_ne_true)] at helements
      refine .inl ⟨Content.isMisc_of_not ?_ helement (hcharacters id (by simp)), hrest helements⟩
      exact hd.only_root id root (hids id (by simp))

theorem isShown_text (s : String) : IsShown (.text s) :=
  ⟨isPrintable_text s, by simp, fun _ h => by cases h⟩

theorem forall_laidOut {P : Content → Prop} (htext : ∀ s, P (.text s)) (options : PrintOptions)
    (depth : Nat) {f : Branches} (h : f.Forall fun c _ => P c) :
    (f.laidOut options depth).Forall fun c _ => P c := by
  have hspread : ∀ {before after : List Char} {g : Branches}, g.Forall (fun c _ => P c) →
      (g.spread before after).Forall fun c _ => P c := by
    intro before after g hg
    induction g with
    | nil => exact ⟨htext _, trivial, trivial⟩
    | node c below rest _ ihRest => exact ⟨htext _, trivial, hg.1, hg.2.1, ihRest hg.2.2⟩
  induction f generalizing depth with
  | nil => trivial
  | node c below rest ihBelow ihRest =>
    refine ⟨h.1, ?_, ihRest depth h.2.2⟩
    split
    · exact hspread (ihBelow (depth + 1) h.2.1)
    · exact ihBelow (depth + 1) h.2.1

theorem isTop_laidOut {options : PrintOptions} {depth : Nat} {f : Branches} {hasRoot : Bool}
    (h : f.IsTop hasRoot) : (f.laidOut options depth).IsTop hasRoot := by
  induction f generalizing hasRoot with
  | nil => exact h
  | node c below rest _ ihRest =>
    rcases h with ⟨hmisc, hrest⟩ | ⟨helement, hno, hrest⟩
    · exact .inl ⟨hmisc, ihRest hrest⟩
    · exact .inr ⟨helement, hno, ihRest hrest⟩

section Documents

variable (hd : d.IsRooted) (hcontents : ∀ j, IsPrintable (d.content j))
  (hcdata : ∀ c s, d.IsAbove root c → d.content c = .cdata s → Text.IsBody "]]>".toList s.toList)
include hd

theorem map_printNode_children (options : PrintOptions) {ids : List NodeId}
    (hids : ∀ c ∈ ids, d.parent c = some root) : ids.map (printNode options d d.size 0) =
      ((d.branches ids).laidOut options 0).writeEach options := by
  induction ids with
  | nil =>
    rw [Document.branches_nil]
    rfl
  | cons id rest ih =>
    have hparent := hids id (by simp)
    have hprints : PrintsTree options d d.size 0 id := printsTree hd options 0 hparent
      fun a ha => hd.isForest.climb_size_succ_ne a root (by
        rw [Document.climb_succ, ha, Option.bind_some, hparent])
    rw [List.map_cons, hprints, ih fun c hc => hids c (by simp [hc]),
      Document.branches_cons hd.isForest]
    rfl

include hcontents hcdata

/-- Printed markup of a document with one root element is read as its trees, with the blank
texts of pretty printing where they can be seen. -/
theorem read_print_eq (hone : d.HasOneRoot) (options : PrintOptions) :
    read (print options d) = .ok (replanted options d) := by
  obtain ⟨r, helements, hcharacters⟩ := hone
  have hids : ∀ c ∈ d.children root, d.parent c = some root := fun c hc =>
    (hd.isForest.mem_children_iff root c).1 hc
  have htop : ((d.branches (d.children root)).laidOut options 0).IsTop false :=
    isTop_laidOut (isTop_branches hd helements hids hcharacters)
  have hshown : ((d.branches (d.children root)).laidOut options 0).Forall fun c _ => IsShown c := by
    refine forall_laidOut isShown_text options 0 (Document.forall_branches hd.isForest ?_)
    intro c hc j hj
    have habove := Document.isAbove_of_parent (hids c hc)
    refine isShown_of_isAbove hd hcontents hcdata ?_
    rcases (hd.isForest.mem_subtree_iff).1 hj with rfl | hj
    · exact habove
    · exact habove.trans hj
  obtain ⟨htop', hwrite⟩ := Branches.joined_top options htop
  have hshown' := Branches.forall_joined (fun s u _ _ => isShown_text (s ++ u))
    (fun _ _ h => h) hshown
  have hprint : (print options d).toList = (separator options).intercalate
      (((d.branches (d.children root)).laidOut options 0).joined.writeEach options) := by
    rw [print, String.toList_ofList, map_printNode_children hd options hids, hwrite]
    rfl
  have hstops := stops_intercalate options hshown' (startsWithText_of_isTop htop')
    (separator options)
  refine read_eq_ok_iff.2 ⟨⟨replanted options d, [], true⟩, ?_, rfl, rfl, rfl⟩
  rw [hprint, dropMark_of_stops hstops]
  exact reads_top hshown' (Branches.isApart_joined _) htop' rfl rfl (by decide)

end Documents

end Markup
end SvgCompact
