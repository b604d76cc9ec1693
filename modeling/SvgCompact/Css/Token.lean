import SvgCompact.Decimal.Shortest

/-!
The tokens of style sheets, selectors and declarations.
-/

namespace SvgCompact
namespace Css

/-- A number in a style sheet.  `whole?` is its value as a 32 bit integer, cut
off at the ends of the range, when it is written without fraction and exponent. -/
structure Numeral where
  signed : Bool
  value : Float
  whole? : Option Int

inductive Bracket
  | round
  | square
  | curly
deriving DecidableEq, Repr

/-- The operators of attribute tests, which are tokens of two characters. -/
inductive MatchSign
  | includes
  | dash
  | start
  | finish
  | substring
deriving DecidableEq, Repr

inductive Token
  | ident (name : String)
  | atKeyword (name : String)
  /-- `#` and a name that cannot stand alone as an identifier. -/
  | hash (name : String)
  /-- `#` and an identifier. -/
  | idHash (name : String)
  | quoted (text : String)
  | badQuoted (text : String)
  | url (text : String)
  | badUrl (text : String)
  | delim (c : Char)
  | number (n : Numeral)
  | percentage (n : Numeral)
  | dimension (n : Numeral) (unit : String)
  | blank (text : String)
  | comment (text : String)
  | colon
  | semicolon
  | comma
  | matching (sign : MatchSign)
  /-- The opening `<!--`, which style sheets may hold. -/
  | commentOpen
  | commentClose
  /-- A name with its opening round bracket. -/
  | function (name : String)
  | opening (bracket : Bracket)
  | closing (bracket : Bracket)

namespace Token

/-- The bracket that a token leaves open. -/
def opens? : Token → Option Bracket
  | function _ => some .round
  | opening bracket => some bracket
  | _ => none

def isBlank : Token → Bool
  | blank _ => true
  | _ => false

def isComment : Token → Bool
  | comment _ => true
  | _ => false

end Token

/-- A token with the text it was read from. -/
structure Lexeme where
  token : Token
  text : List Char

end Css
end SvgCompact
