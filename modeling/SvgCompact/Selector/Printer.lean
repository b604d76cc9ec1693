import SvgCompact.Selector.Basic
import SvgCompact.Css.Spelling

/-!
Writing selectors.
-/

namespace SvgCompact

def Css.MatchSign.write : Css.MatchSign → List Char
  | .includes => ['~', '=']
  | .dash => ['|', '=']
  | .start => ['^', '=']
  | .finish => ['$', '=']
  | .substring => ['*', '=']

namespace AttributeSelector

/-- The name with a bar between its label and its stem. -/
def writeName (a : AttributeSelector) : List Char :=
  match Text.splitAt? (· == ':') a.name.toList with
  | some (space, stem) => Css.spellIdent space ++ '|' :: Css.spellIdent stem
  | none => Css.spellIdent a.name.toList

def writeValue (a : AttributeSelector) : List Char :=
  Css.spellString a.value.toList ++ if a.ignoreCase then [' ', 'i'] else []

def write (a : AttributeSelector) : List Char :=
  let test :=
    match a.test with
    | .present => []
    | .equals => '=' :: a.writeValue
    | .matching sign => sign.write ++ a.writeValue
  '[' :: a.writeName ++ test ++ [']']

end AttributeSelector

namespace SimpleSelector

mutual

def write : SimpleSelector → List Char
  | universal => ['*']
  | type name => Css.spellIdent name.toList
  | id name => '#' :: Css.spellIdent name.toList
  | hasClass name => '.' :: Css.spellIdent name.toList
  | attr a => a.write
  | place p => ':' :: p.name.toList
  | nth counting n => ':' :: counting.name.toList ++ '(' :: n.write ++ [')']
  | negation options => ":not(".toList ++ writeOptions options ++ [')']
  | dynamic name none => ':' :: name.toList
  | dynamic name (some argument) => ':' :: name.toList ++ '(' :: argument.toList ++ [')']
  | pseudoElement name => ':' :: ':' :: name.toList

def writeOptions : List (List SimpleSelector) → List Char
  | [] => []
  | [c] => writeAll c
  | c :: cs => writeAll c ++ ',' :: writeOptions cs

def writeAll : List SimpleSelector → List Char
  | [] => []
  | s :: rest => write s ++ writeAll rest

end

end SimpleSelector

def Combinator.write : Combinator → Char
  | descendant => ' '
  | child => '>'
  | nextSibling => '+'
  | laterSibling => '~'

namespace ComplexSelector

def write : ComplexSelector → List Char
  | compound c => SimpleSelector.writeAll c
  | combined left k c => left.write ++ k.write :: SimpleSelector.writeAll c

def text (s : ComplexSelector) : String :=
  String.ofList s.write

def pseudoText (s : ComplexSelector) : String :=
  String.ofList (s.pseudos.flatMap SimpleSelector.write)

end ComplexSelector

def SelectorList.text (l : SelectorList) : String :=
  String.ofList ([','].intercalate (l.map ComplexSelector.write))

end SvgCompact
