import SvgCompact.Proofs.Css.Gluing
import SvgCompact.Proofs.Css.Spelling
import SvgCompact.Proofs.Selector.Shape
import SvgCompact.Selector.Printer

/-!
The components of written selectors.

Nothing is written between the simple selectors of a compound, and one character between
compounds.  A simple selector keeps its components in front of everything that can follow
it, except that `--` and a closing angle bracket are one token (`Ends`), and nothing that
it begins with goes on with a combinator (`StandsOff`).

Attribute tests and pseudo-classes with arguments are one block each, so nothing around the
bracket matters.  What can go wrong is inside it: an attribute whose name has a colon at one
end (`IsQualified`), and an argument that leaves something open or has a bracket too many
(`IsArgument`).
-/

namespace SvgCompact

namespace Css

/-! ## What simple selectors consist of -/

def Token.isPart : Token → Bool
  | ident _ => true
  | idHash _ => true
  | colon => true
  | delim c => c == '.' || c == '*'
  | _ => false

namespace Token

variable {token : Token}

theorem isFlat_of_isPart (h : token.isPart = true) : token.isFlat = true := by
  cases token <;> first | rfl | cases h

theorem ne_closing_of_isPart (h : token.isPart = true) (bracket : Bracket) :
    token ≠ .closing bracket := by
  rintro rfl
  cases h

end Token

namespace Component

/-- No blank, comment, comma or combinator, and no bracket that stands alone. -/
def isPart : Component → Bool
  | token lexeme => lexeme.token.isPart
  | block opener _ _ _ => opener.token.opens?.isSome

variable {c : Component}

theorem isSpacing_of_isPart (h : c.isPart = true) : c.isSpacing = false := by
  cases c with
  | token lexeme =>
    obtain ⟨token, text⟩ := lexeme
    cases token <;> first | rfl | cases h
  | block opener bracket body closer =>
    obtain ⟨token, text⟩ := opener
    cases token <;> first | rfl | cases h

theorem isComma_of_isPart (h : c.isPart = true) : c.isComma = false := by
  cases c with
  | token lexeme =>
    obtain ⟨token, text⟩ := lexeme
    cases token <;> first | rfl | cases h
  | block => rfl

theorem combinator?_of_isPart (h : c.isPart = true) : SelectorReader.combinator? c = none := by
  unfold SelectorReader.combinator?
  split
  · cases h
  · cases h
  · cases h
  · rfl

theorem isPart_token_ne_closing {l : Lexeme} (h : (token l).isPart = true) (bracket : Bracket) :
    l.token ≠ .closing bracket :=
  Token.ne_closing_of_isPart h bracket

end Component

section

variable {rest s x : List Char} {c : Char} {name : String}

/-! ## Where names end and begin -/

/-- What follows a simple selector: another one, the end of an option or of the list, or a
combinator. -/
def edges : List Char :=
  ['.', '#', '[', ':', ',', ')', ' ', '>', '+', '~']

def IsEdge (rest : List Char) : Prop :=
  ∀ c ∈ rest.head?, c ∈ edges

theorem isEdge_nil : IsEdge [] :=
  nofun

theorem isEdge_cons (h : c ∈ edges) : IsEdge (c :: s) := by
  rintro d ⟨⟩
  exact h

/-- A text that a name ends in front of. -/
structure StopsName (rest : List Char) : Prop where
  stops : continuesName rest = false
  bracket : rest.head? ≠ some '('

theorem stopsName_of_head (hrest : ∀ c ∈ rest.head?,
    (isNameChar c || c == '\x00' || c == '\\' || c == '(') = false) : StopsName rest := by
  cases rest with
  | nil => exact ⟨rfl, nofun⟩
  | cons c rest =>
    have hc := hrest c rfl
    simp only [Bool.or_eq_false_iff] at hc
    refine ⟨?_, fun h => ?_⟩
    · rw [continuesName, hc.1.1.1, hc.1.1.2, hc.1.2]
      rfl
    · rw [Option.some.inj h] at hc
      cases hc.2

theorem IsEdge.stopsName (h : IsEdge rest) : StopsName rest := by
  have hnone : (edges.any fun c => isNameChar c || c == '\x00' || c == '\\' || c == '(') = false :=
    by decide
  exact stopsName_of_head fun c hc => by simpa using List.any_eq_false.1 hnone c (h c hc)

theorem lexemes_name (h : IsName name) (hrest : StopsName rest)
    (hdash : name = "--" → rest.head? ≠ some '>') :
    lexemes (spellIdent name.toList ++ rest) =
      ⟨.ident name, spellIdent name.toList⟩ :: lexemes rest :=
  lexemes_ident h hrest.stops hrest.bracket hdash

theorem IsName.exists_head (h : IsName name) :
    ∃ c x, spellIdent name.toList = c :: x ∧ (isNameStart c || c == '-' || c == '\\') = true := by
  obtain ⟨c, x, hx, hstart⟩ := exists_startsName [] h.ne_nil h.free (by simp)
  refine ⟨c, x, hx, ?_⟩
  have hident := hstart.ident
  rw [startsIdent_cons] at hident
  split at hident
  · next hhyphen => simp [hhyphen]
  · split at hident
    · next hslash => simp [hslash]
    · rw [hident, Bool.true_or, Bool.true_or]

theorem isDigit_of_isNameHead (hc : (isNameStart c || c == '-' || c == '\\') = true) :
    c.isDigit = false := by
  simp only [Bool.or_eq_true, beq_iff_eq] at hc
  rcases hc with (hc | rfl) | rfl
  · exact not_isDigit_of_isNameStart hc
  · rfl
  · rfl

theorem lexemes_stop (hs : s.head?.any Char.isDigit = false) :
    lexemes ('.' :: s) = ⟨.delim '.', ['.']⟩ :: lexemes s := by
  have hnumber : startsNumber ('.' :: s) = false := by
    rw [startsNumber_eq, takeSign_cons, if_neg (by decide), if_neg (by decide)]
    simpa using hs
  have hstart : start '.' s = (.delim '.', s) := by
    simp only [start, hnumber, if_false, Bool.false_eq_true]
    rfl
  rw [lexemes_cons, first_of_start hstart]

/-! ## What selectors begin with -/

/-- A text that no combinator in front of it goes on with. -/
structure StandsOff (s : List Char) : Prop where
  space : s.head?.any Text.isSpace = false
  sign : s.head? ≠ some '='
  number : startsNumber ('+' :: s) = false

theorem startsNumber_plus (s : List Char) :
    startsNumber ('+' :: s) =
      s.head?.any fun c => if c = '.' then s.tail.head?.any Char.isDigit else c.isDigit := by
  rw [startsNumber_eq, takeSign_cons, if_neg (by decide), if_pos rfl]

theorem standsOff_cons
    (h : (Text.isSpace c || c == '=' || c == '.' || c.isDigit) = false) : StandsOff (c :: s) := by
  simp only [Bool.or_eq_false_iff, beq_eq_false_iff_ne] at h
  refine ⟨h.1.1.1, by simpa using h.1.1.2, ?_⟩
  rw [startsNumber_plus, List.head?_cons, Option.any_some, if_neg h.1.2, h.2]

theorem standsOff_stop (h : c.isDigit = false) : StandsOff ('.' :: c :: s) := by
  refine ⟨rfl, by simp, ?_⟩
  rw [startsNumber_plus, List.head?_cons, Option.any_some, if_pos rfl]
  exact h

end

end Css

section

variable {s x rest : List Char} {c : Char} {name : String} {isElemental : Bool}

open Css

/-- How the text of a simple selector begins. -/
inductive Begins (isElemental : Bool) : List Char → Prop
  | mark {c : Char} (hc : c ∈ ['#', '[', ':']) (s : List Char) : Begins isElemental (c :: s)
  | stop {c : Char} (hc : c.isDigit = false) (s : List Char) : Begins isElemental ('.' :: c :: s)
  | star (helemental : isElemental = true) (s : List Char) : Begins isElemental ('*' :: s)
  | name {c : Char} (helemental : isElemental = true)
      (hc : (isNameStart c || c == '-' || c == '\\') = true) (s : List Char) :
      Begins isElemental (c :: s)

namespace Begins

theorem append (h : Begins isElemental s) (rest : List Char) : Begins isElemental (s ++ rest) := by
  cases h with
  | mark hc => exact .mark hc _
  | stop hc => exact .stop hc _
  | star helemental => exact .star helemental _
  | name helemental hc => exact .name helemental hc _

theorem ne_nil (h : Begins isElemental s) : s ≠ [] := by
  cases h <;> exact List.cons_ne_nil _ _

theorem standsOff (h : Begins isElemental s) : StandsOff s := by
  cases h with
  | mark hc =>
    refine standsOff_cons ?_
    simp only [List.mem_cons, List.not_mem_nil, or_false] at hc
    rcases hc with rfl | rfl | rfl <;> rfl
  | stop hc => exact standsOff_stop hc
  | star => exact standsOff_cons rfl
  | name _ hc =>
    refine standsOff_cons ?_
    rw [isDigit_of_isNameHead hc, Bool.or_false, Bool.eq_false_iff]
    intro h
    simp only [Text.isSpace, Text.isMarkupBlank, Bool.or_eq_true, beq_iff_eq, or_assoc] at h
    rcases h with rfl | rfl | rfl | rfl | rfl | rfl | rfl <;> exact absurd hc (by decide)

/-- Only a type or the universal selector has to be in front. -/
theorem isEdge (h : Begins false s) : IsEdge s ∧ s.head? ≠ some '>' := by
  cases h with
  | mark hc =>
    simp only [List.mem_cons, List.not_mem_nil, or_false] at hc
    rcases hc with rfl | rfl | rfl <;> exact ⟨isEdge_cons (by decide), by simp⟩
  | stop hc => exact ⟨isEdge_cons (by decide), by simp⟩
  | star helemental => cases helemental
  | name helemental => cases helemental

end Begins

end

/-! ## Combinators -/

namespace Combinator

open Css

def token : Combinator → Token
  | descendant => .blank " "
  | child => .delim '>'
  | nextSibling => .delim '+'
  | laterSibling => .delim '~'

theorem start_write (k : Combinator) {s : List Char} (h : StandsOff s) :
    start k.write s = (k.token, s) := by
  cases k with
  | descendant =>
    have hspace := h.space
    change start ' ' s = _
    rw [start_space (by decide)]
    cases s with
    | nil => rfl
    | cons c s =>
      simp only [List.head?_cons, Option.any_some] at hspace
      rw [List.takeWhile_cons_of_neg (by simp [hspace]),
        List.dropWhile_cons_of_neg (by simp [hspace])]
      rfl
  | child => rfl
  | nextSibling =>
    change start '+' s = _
    simp only [start, h.number, if_false, Bool.false_eq_true]
    rfl
  | laterSibling =>
    have hsign := h.sign
    change signOr '~' .includes s = _
    unfold signOr
    split
    · exact absurd rfl hsign
    · rfl

theorem first_write (k : Combinator) {s : List Char} (h : StandsOff s) :
    first k.write s = (⟨k.token, [k.write]⟩, s) :=
  first_of_start (k.start_write h)

theorem lexemes_write (k : Combinator) {s : List Char} (h : StandsOff s) :
    lexemes (k.write :: s) = ⟨k.token, [k.write]⟩ :: lexemes s := by
  rw [lexemes_cons, k.first_write h]

theorem opens?_token (k : Combinator) : k.token.opens? = none := by
  cases k <;> rfl

end Combinator

/-! ## Simple selectors -/

namespace SimpleSelector

open Css SelectorReader

/-- Whether the text ends with a name `--`. -/
def isHyphens : SimpleSelector → Bool
  | type name | hasClass name | pseudoElement name => name == "--"
  | _ => false

/-- What can stand behind the text of a simple selector. -/
structure Ends (s : SimpleSelector) (rest : List Char) : Prop where
  isEdge : IsEdge rest
  hyphens : s.isHyphens = true → rest.head? ≠ some '>'

theorem ends_nil (s : SimpleSelector) : s.Ends [] :=
  ⟨isEdge_nil, by simp⟩

/-- A simple selector whose text has components of its own, from which it is read. -/
structure ReadsBack (s : SimpleSelector) : Prop where
  begins : Begins s.isElemental s.write
  whole : IsWholeBefore s.Ends s.write
  parts : ∀ c ∈ components s.write, c.isPart = true
  read : ∀ (isFirst : Bool) (rest : List Component), (s.isElemental = true → isFirst = true) →
    simples isFirst (components s.write ++ rest) =
      (simples false rest).map fun (others, rest) => (s :: others, rest)

variable {s : SimpleSelector} {name : String}

theorem ReadsBack.of_lexemes (ls : List Lexeme) (hbegins : Begins s.isElemental s.write)
    (hs : ∀ rest, s.Ends rest → lexemes (s.write ++ rest) = ls ++ lexemes rest)
    (hparts : ∀ l ∈ ls, l.token.isPart = true)
    (hstep : ∀ (isFirst : Bool) (rest : List Component), (s.isElemental = true → isFirst = true) →
      step isFirst (ls.map .token ++ rest) = .ok (.simple s rest)) : s.ReadsBack := by
  obtain ⟨hwhole, hcomponents⟩ := isWholeBefore_of_lexemes s.ends_nil hs
    fun l hl => Token.isFlat_of_isPart (hparts l hl)
  refine ⟨hbegins, hwhole, ?_, ?_⟩
  · rw [hcomponents]
    exact List.forall_mem_map.2 hparts
  · rw [hcomponents]
    exact fun isFirst rest hfirst => simples_of_step (hstep isFirst rest hfirst)

theorem readsBack_universal : universal.ReadsBack := by
  refine .of_lexemes [⟨.delim '*', ['*']⟩] (.star rfl _) (fun rest hrest => ?_)
    (by simp [Token.isPart]) fun isFirst rest hfirst => ?_
  · have hstart : start '*' rest = (.delim '*', rest) := by
      change signOr '*' .substring rest = _
      unfold signOr
      split
      · exact absurd (hrest.isEdge _ rfl) (by decide)
      · rfl
    exact lexemes_cons '*' rest ▸ by rw [first_of_start hstart]; rfl
  · rw [hfirst rfl]
    rfl

theorem readsBack_type (h : IsName name) : (type name).ReadsBack := by
  obtain ⟨c, x, hx, hc⟩ := h.exists_head
  refine .of_lexemes [⟨.ident name, spellIdent name.toList⟩] ?_ (fun rest hrest => ?_)
    (by simp [Token.isPart]) fun isFirst rest hfirst => ?_
  · rw [write, hx]
    exact .name rfl hc x
  · exact lexemes_name h hrest.isEdge.stopsName fun hname => hrest.hyphens (by simpa [isHyphens])
  · rw [hfirst rfl]
    rfl

theorem readsBack_id (h : IsName name) : (id name).ReadsBack :=
  .of_lexemes [⟨.idHash name, '#' :: spellIdent name.toList⟩] (.mark (by decide) _)
    (fun _ hrest => lexemes_idHash h hrest.isEdge.stopsName.stops) (by simp [Token.isPart])
    fun _ _ _ => rfl

theorem readsBack_hasClass (h : IsName name) : (hasClass name).ReadsBack := by
  obtain ⟨c, x, hx, hc⟩ := h.exists_head
  have hdigit := isDigit_of_isNameHead hc
  refine .of_lexemes [⟨.delim '.', ['.']⟩, ⟨.ident name, spellIdent name.toList⟩] ?_
    (fun rest hrest => ?_) (by simp [Token.isPart]) fun _ _ _ => rfl
  · rw [write, hx]
    exact .stop hdigit x
  · have hhead : (spellIdent name.toList ++ rest).head?.any Char.isDigit = false := by
      rw [hx]
      exact hdigit
    rw [write, List.cons_append, lexemes_stop hhead,
      lexemes_name h hrest.isEdge.stopsName fun hname => hrest.hyphens (by simpa [isHyphens])]
    rfl

/-! ### Pseudo-classes and pseudo-elements -/

/-- A name that is written without escapes. -/
structure IsPlainName (name : String) : Prop where
  isName : IsName name
  spelled : spellIdent name.toList = name.toList
  address : Text.sameLetters name.toList "url".toList = false

instance : DecidablePred IsPlainName := fun name =>
  decidable_of_iff ((name.toList ≠ [] ∧ '\x00' ∉ name.toList) ∧
      spellIdent name.toList = name.toList ∧
      Text.sameLetters name.toList "url".toList = false)
    ⟨fun h => ⟨⟨h.1.1, h.1.2⟩, h.2.1, h.2.2⟩, fun h =>
      ⟨⟨h.isName.ne_nil, h.isName.free⟩, h.spelled, h.address⟩⟩

theorem lexemes_colon (s : List Char) : lexemes (':' :: s) = ⟨.colon, [':']⟩ :: lexemes s :=
  lexemes_of_start (fun _ => rfl) s

theorem lexemes_plainName (h : IsName name) (hspelled : spellIdent name.toList = name.toList)
    {rest : List Char} (hrest : StopsName rest) (hdash : name = "--" → rest.head? ≠ some '>') :
    lexemes (name.toList ++ rest) = ⟨.ident name, name.toList⟩ :: lexemes rest := by
  have hlexemes := lexemes_name h hrest hdash
  rwa [hspelled] at hlexemes

/-- A pseudo-class that is written as a name. -/
theorem ReadsBack.of_name (h : IsPlainName name) (hdash : name ≠ "--")
    (hwrite : s.write = ':' :: name.toList) (hread : pseudoName name = .ok s) : s.ReadsBack := by
  refine .of_lexemes [⟨.colon, [':']⟩, ⟨.ident name, name.toList⟩] ?_
    (fun rest hrest => ?_) (by simp [Token.isPart]) fun isFirst rest _ => ?_
  · rw [hwrite]
    exact .mark (by decide) _
  · rw [hwrite, List.cons_append, lexemes_colon,
      lexemes_plainName h.isName h.spelled hrest.isEdge.stopsName fun hname => absurd hname hdash]
    rfl
  · change (pseudoName name).map (Step.simple · rest) = _
    rw [hread]
    rfl

theorem readsBack_place (p : Place) : (place p).ReadsBack := by
  have hplain : IsPlainName p.name ∧ p.name ≠ "--" := by cases p <;> decide
  exact .of_name hplain.1 hplain.2 rfl (by cases p <;> rfl)

theorem readsBack_dynamic (h : name ∈ dynamicClasses) : (dynamic name none).ReadsBack := by
  have hall : ∀ name ∈ dynamicClasses, IsPlainName name ∧ name ≠ "--" ∧
      Text.lowerWord name = name ∧ (Place.all.find? (·.name == name)).isNone ∧
      singleColonElements.contains name = false ∧ dynamicClasses.contains name = true := by
    decide
  obtain ⟨hplain, hdash, hlower, hplace, hsingle, hclass⟩ := hall name h
  refine .of_name hplain hdash rfl ?_
  rw [pseudoName, hlower, Option.isNone_iff_eq_none.1 hplace]
  dsimp only
  rw [hsingle, hclass]
  rfl

theorem readsBack_pseudoElement (h : IsName name) (hlower : Text.lowerWord name = name)
    (hspelled : spellIdent name.toList = name.toList) : (pseudoElement name).ReadsBack := by
  refine .of_lexemes [⟨.colon, [':']⟩, ⟨.colon, [':']⟩, ⟨.ident name, name.toList⟩]
    (.mark (by decide) _) (fun rest hrest => ?_) (by simp [Token.isPart]) fun isFirst rest _ => ?_
  · rw [write, List.cons_append, List.cons_append, lexemes_colon, lexemes_colon,
      lexemes_plainName h hspelled hrest.isEdge.stopsName fun hname =>
        hrest.hyphens (by simpa [isHyphens])]
    rfl
  · change Except.ok (Step.simple (.pseudoElement (Text.lowerWord name)) rest) = _
    rw [hlower]

end SimpleSelector

open Css

/-! ## Attribute tests -/

namespace AttributeSelector

open SelectorReader

/-- Names stand on both sides of the bar that a colon is written as. -/
def IsQualified (a : AttributeSelector) : Prop :=
  ∀ label stem, Text.splitAt? (· == ':') a.name.toList = some (label, stem) →
    label ≠ [] ∧ stem ≠ []

def writeTest (a : AttributeSelector) : List Char :=
  match a.test with
  | .present => []
  | .equals => '=' :: a.writeValue
  | .matching sign => sign.write ++ a.writeValue

theorem write_eq (a : AttributeSelector) :
    a.write = ['['] ++ (a.writeName ++ a.writeTest) ++ [']'] :=
  rfl

def valueLexemes (a : AttributeSelector) : List Lexeme :=
  ⟨.quoted a.value, spellString a.value.toList⟩ ::
    if a.ignoreCase then [⟨.blank " ", [' ']⟩, ⟨.ident "i", ['i']⟩] else []

def testLexemes (a : AttributeSelector) : List Lexeme :=
  match a.test with
  | .present => []
  | .equals => ⟨.delim '=', ['=']⟩ :: a.valueLexemes
  | .matching sign => ⟨.matching sign, sign.write⟩ :: a.valueLexemes

section

variable {a : AttributeSelector} {rest : List Char} {tail : List Component}

/-- The end of a text, or a square bracket. -/
def IsSquare (rest : List Char) : Prop :=
  ∀ c ∈ rest.head?, c = ']'

theorem IsSquare.stopsName (h : IsSquare rest) : StopsName rest :=
  stopsName_of_head fun c hc => by rw [h c hc]; rfl

theorem lexemes_value (h : '\x00' ∉ a.value.toList) (hrest : IsSquare rest) :
    lexemes (a.writeValue ++ rest) = a.valueLexemes ++ lexemes rest := by
  rw [writeValue, valueLexemes, List.append_assoc, lexemes_quoted h]
  cases a.ignoreCase with
  | false => rfl
  | true =>
    have hbegins : Begins true ('i' :: rest) := .name rfl rfl rest
    have hspace : lexemes (' ' :: 'i' :: rest) = ⟨.blank " ", [' ']⟩ :: lexemes ('i' :: rest) :=
      Combinator.lexemes_write .descendant hbegins.standsOff
    have hname : IsName "i" := ⟨by decide, by decide⟩
    have hflag : lexemes ('i' :: rest) = ⟨.ident "i", ['i']⟩ :: lexemes rest :=
      lexemes_name hname hrest.stopsName (by simp)
    rw [if_pos rfl, if_pos rfl, List.cons_append, List.cons_append, List.nil_append, hspace, hflag]
    rfl

theorem lexemes_sign (sign : MatchSign) (rest : List Char) :
    lexemes (sign.write ++ rest) = ⟨.matching sign, sign.write⟩ :: lexemes rest := by
  cases sign <;> exact lexemes_of_start_append rfl

theorem lexemes_test (h : a.IsProper) (hrest : IsSquare rest) :
    lexemes (a.writeTest ++ rest) = a.testLexemes ++ lexemes rest := by
  rw [writeTest, testLexemes]
  cases a.test with
  | present => rfl
  | equals =>
    have hsign : lexemes ('=' :: (a.writeValue ++ rest)) =
        ⟨.delim '=', ['=']⟩ :: lexemes (a.writeValue ++ rest) := lexemes_of_start (fun _ => rfl) _
    dsimp only
    rw [List.cons_append, hsign, lexemes_value h.value hrest]
    rfl
  | matching sign =>
    dsimp only
    rw [List.append_assoc, lexemes_sign, lexemes_value h.value hrest]
    rfl

/-- The name ends in front of the test. -/
theorem stopsName_test (a : AttributeSelector) (hrest : IsSquare rest) :
    StopsName (a.writeTest ++ rest) ∧ (a.writeTest ++ rest).head? ≠ some '>' := by
  rw [writeTest]
  cases a.test with
  | present =>
    refine ⟨hrest.stopsName, fun h => ?_⟩
    exact absurd (hrest _ h) (by decide)
  | equals => exact ⟨stopsName_of_head (by simp [Css.isNameChar]), by simp⟩
  | matching sign =>
    cases sign <;> exact ⟨stopsName_of_head (by simp [MatchSign.write, Css.isNameChar]), by
      simp [MatchSign.write]⟩

/-! ### Names -/

/-- What a bar between the sides of a name is not. -/
def IsTest (tail : List Component) : Prop :=
  ∀ c ∈ tail.head?, (attributeTest? c.head).isSome

theorem attributeName_plain {name : String} {text : List Char} (h : IsTest tail) :
    attributeName (.token ⟨.ident name, text⟩ :: tail) = .ok (name, tail) := by
  cases tail with
  | nil => rfl
  | cons c tail =>
    have hc := h c rfl
    cases c with
    | token lexeme =>
      obtain ⟨token, text⟩ := lexeme
      cases token with
      | matching sign => rfl
      | delim d =>
        obtain rfl : d = '=' := by
          by_contra hd
          simp [Component.head, attributeTest?, hd] at hc
        rfl
      | _ => cases hc
    | block opener bracket body closer =>
      obtain ⟨token, text⟩ := opener
      cases token with
      | matching sign => rfl
      | delim d => rfl
      | _ => cases hc

/-- The lexemes of a name: one, or two names with a bar between them. -/
structure Names (a : AttributeSelector) (ls : List Lexeme) : Prop where
  lexemes : ∀ rest, StopsName rest → rest.head? ≠ some '>' →
    Css.lexemes (a.writeName ++ rest) = ls ++ Css.lexemes rest
  flat : ∀ l ∈ ls, l.token.isFlat = true
  read : ∀ tail, IsTest tail → attributeName (ls.map .token ++ tail) = .ok (a.name, tail)

theorem exists_names (h : IsName a.name) (hqualified : a.IsQualified) : ∃ ls, a.Names ls := by
  cases hsplit : Text.splitAt? (· == ':') a.name.toList with
  | none =>
    have hwrite : a.writeName = spellIdent a.name.toList := by rw [writeName, hsplit]
    exact ⟨[⟨.ident a.name, spellIdent a.name.toList⟩],
      fun rest hrest hchild => hwrite ▸ lexemes_name h hrest fun _ => hchild,
      by simp [Token.isFlat], fun tail htail => attributeName_plain htail⟩
  | some sides =>
    obtain ⟨label, stem⟩ := sides
    have hwrite : a.writeName = spellIdent label ++ '|' :: spellIdent stem := by
      rw [writeName, hsplit]
    obtain ⟨c, hc, hname, -⟩ := Text.splitAt?_eq_some_iff.1 hsplit
    obtain rfl := eq_of_beq hc
    obtain ⟨hlabel, hstem⟩ := hqualified label stem hsplit
    have hfree := h.free
    rw [hname, List.mem_append, List.mem_cons, not_or, not_or] at hfree
    have hlabel : IsName (String.ofList label) :=
      ⟨by rwa [String.toList_ofList], by rw [String.toList_ofList]; exact hfree.1⟩
    have hstem : IsName (String.ofList stem) :=
      ⟨by rwa [String.toList_ofList], by rw [String.toList_ofList]; exact hfree.2.2⟩
    have hjoin : String.ofList label ++ ":" ++ String.ofList stem = a.name := by
      rw [← String.toList_inj, hname]
      simp
    refine ⟨[⟨.ident (String.ofList label), spellIdent label⟩, ⟨.delim '|', ['|']⟩,
      ⟨.ident (String.ofList stem), spellIdent stem⟩], fun rest hrest hchild => ?_,
      by simp [Token.isFlat], fun tail htail => ?_⟩
    · have hstops : StopsName ('|' :: (spellIdent stem ++ rest)) :=
        stopsName_of_head (by simp [Css.isNameChar])
      have hfront := lexemes_name hlabel hstops (by simp)
      have hback := lexemes_name hstem hrest fun _ => hchild
      rw [String.toList_ofList] at hfront hback
      obtain ⟨c, x, hx, hc⟩ := hstem.exists_head
      rw [String.toList_ofList] at hx
      have hbar : Css.lexemes ('|' :: (spellIdent stem ++ rest)) =
          ⟨.delim '|', ['|']⟩ :: Css.lexemes (spellIdent stem ++ rest) := by
        have hstart : start '|' (spellIdent stem ++ rest) =
            (.delim '|', spellIdent stem ++ rest) := by
          change signOr '|' .dash _ = _
          rw [hx]
          unfold signOr
          split
          · next heq =>
            rw [(List.cons.inj heq).1] at hc
            cases hc
          · rfl
        rw [lexemes_cons, first_of_start hstart]
      rw [hwrite, List.append_assoc, List.cons_append, hfront, hbar, hback]
      rfl
    · rw [← hjoin]
      rfl

/-! ### Tests -/

theorem isTest_lexemes (a : AttributeSelector) : IsTest (a.testLexemes.map .token) := by
  rw [testLexemes]
  cases a.test with
  | present => nofun
  | equals => rintro c ⟨⟩; rfl
  | matching sign => rintro c ⟨⟩; rfl

theorem attributeSelector_lexemes {ls : List Lexeme} (h : a.IsProper) (hls : a.Names ls) :
    attributeSelector ((ls ++ a.testLexemes).map .token) = .ok a := by
  have hpresent := h.present
  have hread := hls.read _ a.isTest_lexemes
  rw [List.map_append, attributeSelector, hread]
  obtain ⟨name, test, value, ignoreCase⟩ := a
  cases test with
  | present =>
    obtain ⟨rfl, rfl⟩ := hpresent rfl
    rfl
  | equals => cases ignoreCase <;> rfl
  | matching sign => cases ignoreCase <;> rfl

theorem isFlat_testLexemes (a : AttributeSelector) :
    ∀ l ∈ a.testLexemes, l.token.isFlat = true := by
  rw [testLexemes, valueLexemes]
  cases a.test <;> cases a.ignoreCase <;> simp [Token.isFlat]

end

end AttributeSelector

namespace SimpleSelector

open SelectorReader

variable {s : SimpleSelector} {name : String} {argument : List Char}

theorem encloses_square : Encloses ⟨.opening .square, ['[']⟩ .square ']' where
  opens := rfl
  front := lexemes_of_start fun _ => rfl
  back _ := rfl

theorem readsBack_attr {a : AttributeSelector} (h : a.IsProper) (hqualified : a.IsQualified) :
    (attr a).ReadsBack := by
  obtain ⟨ls, hls⟩ := a.exists_names h.name hqualified
  have hlexemes : ∀ rest, AttributeSelector.IsSquare rest →
      lexemes (a.writeName ++ a.writeTest ++ rest) = ls ++ a.testLexemes ++ lexemes rest := by
    intro rest hrest
    obtain ⟨hstops, hchild⟩ := a.stopsName_test hrest
    rw [List.append_assoc, hls.lexemes _ hstops hchild, AttributeSelector.lexemes_test h hrest,
      List.append_assoc]
  have hflat : ∀ l ∈ ls ++ a.testLexemes, l.token.isFlat = true :=
    List.forall_mem_append.2 ⟨hls.flat, a.isFlat_testLexemes⟩
  obtain ⟨hwhole, hcomponents⟩ := isWholeBefore_of_lexemes nofun hlexemes hflat
  have hbody : IsWholeBefore (·.head? = some ']') (a.writeName ++ a.writeTest) :=
    hwhole.mono fun rest hrest c hc => (Option.some.inj (hrest.symm.trans hc)).symm
  have hfree : ∀ l, .token l ∈ components (a.writeName ++ a.writeTest) →
      l.token ≠ .closing .square := by
    rw [hcomponents]
    exact ne_closing_of_isFlat hflat .square
  have hwrite : write (attr a) = ['['] ++ (a.writeName ++ a.writeTest) ++ [']'] := by
    rw [write, a.write_eq]
  have hblock := encloses_square.components_block hbody hfree []
  rw [components_nil] at hblock
  refine ⟨.mark (by decide) _, ?_, ?_, fun isFirst rest _ => ?_⟩
  · rw [hwrite]
    exact (encloses_square.isClosed_block hbody hfree).before
  · rw [hwrite, hblock]
    simp [Component.isPart, Token.opens?]
  · rw [hwrite, hblock, hcomponents]
    refine simples_of_step ?_
    change (attributeSelector _).map (fun a => Step.simple (attr a) rest) = _
    rw [AttributeSelector.attributeSelector_lexemes h hls]
    rfl

/-! ## Pseudo-classes with arguments -/

theorem encloses_function (h : IsPlainName name) :
    Encloses ⟨.function name, name.toList ++ ['(']⟩ .round ')' where
  opens := rfl
  front rest := by
    have hlexemes := lexemes_function h.isName h.address rest
    rw [h.spelled] at hlexemes
    simpa using hlexemes
  back _ := rfl

/-- The components of a pseudo-class with an argument. -/
def functionComponents (name : String) (argument : List Char) : List Component :=
  [.token ⟨.colon, [':']⟩,
    .block ⟨.function name, name.toList ++ ['(']⟩ .round (components argument) [')']]

theorem ReadsBack.of_function (h : IsPlainName name)
    (hwrite : s.write = ':' :: name.toList ++ '(' :: argument ++ [')'])
    (hargument : IsWholeBefore (·.head? = some ')') argument)
    (hfree : ∀ l, .token l ∈ components argument → l.token ≠ .closing .round)
    (hread : ∀ (isFirst : Bool) (rest : List Component),
      simples isFirst (functionComponents name argument ++ rest) =
        (simples false rest).map fun (others, rest) => (s :: others, rest)) : s.ReadsBack := by
  have hcolon : IsClosed [':'] := isClosed_single (fun _ => rfl) rfl
  have hsplit : s.write = [':'] ++ ((name.toList ++ ['(']) ++ argument ++ [')']) := by
    rw [hwrite]
    simp
  have hcomponents : components s.write = functionComponents name argument := by
    have hblock := (encloses_function h).components_block hargument hfree []
    rw [components_nil] at hblock
    rw [hsplit, List.singleton_append, components_of_start (fun _ => rfl) rfl, hblock,
      functionComponents]
  refine ⟨?_, ?_, ?_, fun isFirst rest _ => ?_⟩
  · rw [hwrite]
    exact .mark (by decide) _
  · rw [hsplit]
    exact (hcolon.append ((encloses_function h).isClosed_block hargument hfree)).before
  · rw [hcomponents, functionComponents]
    simp [Component.isPart, Token.isPart, Token.opens?]
  · rw [hcomponents]
    exact hread isFirst rest

theorem readsBack_nth (counting : Counting) {n : Nth} (h : n.IsProper) :
    (nth counting n).ReadsBack := by
  obtain ⟨ls, hls⟩ := Nth.exists_writes h
  obtain ⟨hwhole, hcomponents⟩ := isWholeBefore_of_lexemes isTail_nil hls.lexemes hls.flat
  have hname : IsPlainName counting.name := by
    rcases counting with ⟨_ | _, _ | _⟩ <;> decide
  refine .of_function hname (write.eq_def _) (hwhole.mono fun rest hrest c hc => ?_)
    ?_ fun isFirst rest => simples_of_step ?_
  · obtain rfl := Option.some.inj (hrest.symm.trans hc)
    rfl
  · rw [hcomponents]
    exact ne_closing_of_isFlat hls.flat .round
  · have hfunction : step isFirst (functionComponents counting.name n.write ++ rest) =
        ((Nth.read (components n.write)).map (nth counting)).map (Step.simple · rest) := by
      rcases counting with ⟨_ | _, _ | _⟩ <;> rfl
    rw [hfunction, hcomponents, hls.read]
    rfl

/-- An argument that leaves nothing open and has no bracket that closes nothing. -/
structure IsArgument (argument : List Char) : Prop where
  whole : IsWhole argument
  free : ∀ l, .token l ∈ components argument → l.token ≠ .closing .round

theorem readsBack_argument {argument : String} (h : name ∈ dynamicFunctions)
    (htrim : Text.trim argument.toList = argument.toList) (hargument : IsArgument argument.toList) :
    (dynamic name (some argument)).ReadsBack := by
  have hall : ∀ name ∈ dynamicFunctions, IsPlainName name := by decide
  refine .of_function (hall name h) (write.eq_def _) (hargument.whole.beforeMark (by decide))
    hargument.free fun isFirst rest => simples_of_step ?_
  have hfunction : step isFirst (functionComponents name argument.toList ++ rest) =
      .ok (.simple (dynamic name (some (String.ofList (Text.trim
        (Component.textOf (components argument.toList)))))) rest) := by
    simp only [dynamicFunctions, List.mem_cons, List.not_mem_nil, or_false] at h
    rcases h with rfl | rfl <;> rfl
  rw [hfunction, textOf_components, htrim, String.ofList_toList]

end SimpleSelector
end SvgCompact
