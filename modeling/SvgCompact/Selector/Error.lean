import SvgCompact.Css.Token
import SvgCompact.Text.Quoted

/-!
What can be wrong with a selector.
-/

namespace SvgCompact

inductive SelectorFault
  | ended
  | unexpected (token : Css.Token)
  | typeNotFirst
  | noSelector
  | unknownPseudoClass (name : String)
  | unknownPseudoFunction (name : String)
  | notSingle

/-- A fault in the text of a selector. -/
structure SelectorError where
  text : String
  fault : SelectorFault

namespace Css

/-- The fields of a number as messages show them.  The value has single
precision. -/
def Numeral.describe (valueName : String) (n : Numeral) : String :=
  let signed := if n.signed then "true" else "false"
  let whole :=
    match n.whole? with
    | some k => "Some(" ++ toString k ++ ")"
    | none => "None"
  "has_sign: " ++ signed ++ ", " ++ valueName ++ ": "
    ++ String.ofList (Decimal.writeSingle n.value) ++ ", int_value: " ++ whole

namespace Token

def fieldsOf (name fields : String) : String :=
  name ++ " \x7b " ++ fields ++ " \x7d"

def textOf (name text : String) : String :=
  name ++ "(" ++ Text.quoted text ++ ")"

def describe : Token → String
  | ident name => textOf "Ident" name
  | atKeyword name => textOf "AtKeyword" name
  | hash name => textOf "Hash" name
  | idHash name => textOf "IDHash" name
  | quoted text => textOf "QuotedString" text
  | badQuoted text => textOf "BadString" text
  | url text => textOf "UnquotedUrl" text
  | badUrl text => textOf "BadUrl" text
  | delim c => "Delim(" ++ Text.quotedChar c ++ ")"
  | number n => fieldsOf "Number" (n.describe "value")
  | percentage n => fieldsOf "Percentage" (n.describe "unit_value")
  | dimension n unit =>
    fieldsOf "Dimension" (n.describe "value" ++ ", unit: " ++ Text.quoted unit)
  | blank text => textOf "WhiteSpace" text
  | comment text => textOf "Comment" text
  | colon => "Colon"
  | semicolon => "Semicolon"
  | comma => "Comma"
  | matching .includes => "IncludeMatch"
  | matching .dash => "DashMatch"
  | matching .start => "PrefixMatch"
  | matching .finish => "SuffixMatch"
  | matching .substring => "SubstringMatch"
  | commentOpen => "CDO"
  | commentClose => "CDC"
  | function name => textOf "Function" name
  | opening .round => "ParenthesisBlock"
  | opening .square => "SquareBracketBlock"
  | opening .curly => "CurlyBracketBlock"
  | closing .round => "CloseParenthesis"
  | closing .square => "CloseSquareBracket"
  | closing .curly => "CloseCurlyBracket"

end Token
end Css

def SelectorFault.message : SelectorFault → String
  | ended => "EndOfInput"
  | unexpected token => "UnexpectedToken(" ++ token.describe ++ ")"
  | typeNotFirst => "type selector must come first"
  | noSelector => "expected a selector"
  | unknownPseudoClass name => "unknown pseudo-class `:" ++ name ++ "`"
  | unknownPseudoFunction name => "unknown pseudo-class `:" ++ name ++ "()`"
  | notSingle => "expected exactly one selector"

def SelectorError.message (e : SelectorError) : String :=
  "invalid selector `" ++ e.text ++ "`: " ++ e.fault.message

end SvgCompact
