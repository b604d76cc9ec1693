import SvgCompact.Text.Measure

/-!
What can be wrong with markup, and where.
-/

namespace SvgCompact
namespace Markup

/-- A fault in the attributes of a tag. -/
inductive AttributeFault
  | missingEquals
  | missingValue
  | unquoted
  | missingQuote (quote : Char)
  | duplicate (previous : Nat)
deriving DecidableEq, Repr

/-- A fault in a reference such as `&amp;` or `&#x41;`.  Ranges count bytes of
the text that holds the reference. -/
inductive ReferenceFault
  | unterminated (start stop : Nat)
  | unknown (start stop : Nat) (name : String)
  | signed
  | noDigits
  | badDigit
  | tooLarge
  | null
  | noCharacter (code : Nat)
deriving DecidableEq, Repr

inductive Fault
  | unknownDeclaration
  | openInstruction
  | openComment
  | openDoctype
  | openCData
  | openTag
  | mismatchedEnd (expected found : String)
  | unmatchedEnd (found : String)
  | namelessDoctype
  | badAttribute (position : Nat) (fault : AttributeFault)
  | badReference (fault : ReferenceFault)
  | secondRoot
  | textOutsideRoot
  | cdataOutsideRoot
  | unexpectedEnd
  | noRoot
deriving DecidableEq, Repr

def AttributeFault.message : AttributeFault → String
  | missingEquals => "attribute key must be directly followed by `=` or space"
  | missingValue => "`=` must be followed by an attribute value"
  | unquoted => "attribute value must be enclosed in `\"` or `'`"
  | missingQuote quote =>
    "missing closing quote `" ++ quote.toString ++ "` in attribute value"
  | duplicate previous =>
    "duplicated attribute, previous declaration at position " ++ toString previous

def ReferenceFault.message : ReferenceFault → String
  | unterminated start stop =>
    "Error while escaping character at range " ++ toString start ++ ".." ++ toString stop
      ++ ": Cannot find ';' after '&'"
  | unknown start stop name =>
    "at " ++ toString start ++ ".." ++ toString stop ++ ": unrecognized entity `" ++ name
      ++ "`"
  | signed => "invalid character reference: unexpected number sign"
  | noDigits => "invalid character reference: cannot parse integer from empty string"
  | badDigit => "invalid character reference: invalid digit found in string"
  | tooLarge => "invalid character reference: number too large to fit in target type"
  | null => "invalid character reference: 0x0 character is not permitted in XML"
  | noCharacter code =>
    "invalid character reference: `" ++ toString code ++ "` is not a valid codepoint"

def Fault.message : Fault → String
  | unknownDeclaration => "syntax error: unknown or missed symbol in markup"
  | openInstruction =>
    "syntax error: processing instruction or xml declaration not closed: `?>` not found "
      ++ "before end of input"
  | openComment => "syntax error: comment not closed: `-->` not found before end of input"
  | openDoctype => "syntax error: DOCTYPE not closed: `>` not found before end of input"
  | openCData => "syntax error: CDATA not closed: `]]>` not found before end of input"
  | openTag => "syntax error: tag not closed: `>` not found before end of input"
  | mismatchedEnd expected found =>
    "ill-formed document: expected `</" ++ expected ++ ">`, but `</" ++ found
      ++ ">` was found"
  | unmatchedEnd found =>
    "ill-formed document: close tag `</" ++ found ++ ">` does not match any open tag"
  | namelessDoctype =>
    "ill-formed document: `<!DOCTYPE>` declaration does not contain a name of a document type"
  | badAttribute position fault =>
    "invalid attribute: position " ++ toString position ++ ": " ++ fault.message
  | badReference fault => fault.message
  | secondRoot => "multiple root elements"
  | textOutsideRoot => "text outside the root element"
  | cdataOutsideRoot => "CDATA outside the root element"
  | unexpectedEnd => "unexpected end of file"
  | noRoot => "no root element found"

/-- A fault at a place in the input.  The offset counts bytes from zero, line
and column count lines and characters from one. -/
structure Error where
  fault : Fault
  line : Nat
  column : Nat
  offset : Nat
deriving DecidableEq, Repr

namespace Error

/-- The characters that begin before a byte offset. -/
def before : Nat → List Char → List Char
  | _, [] => []
  | offset, c :: cs => if offset = 0 then [] else c :: before (offset - c.utf8Size) cs

/-- Places a fault in the input. -/
def locate (input : List Char) (offset : Nat) (fault : Fault) : Error :=
  let offset := min offset (Text.byteSize input)
  let ahead := before offset input
  let column := (ahead.reverse.takeWhile (· != '\n')).length + 1
  ⟨fault, ahead.count '\n' + 1, column, offset⟩

def message (e : Error) : String :=
  "markup parse error at line " ++ toString e.line ++ ", column " ++ toString e.column
    ++ ": " ++ e.fault.message

end Error
end Markup
end SvgCompact
