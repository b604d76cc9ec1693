import SvgCompact.Css.Lexer

/-!
Writing identifiers and strings so that they read back.

Characters that would end a name are escaped, control characters by their
number and all others by a backslash.
-/

namespace SvgCompact
namespace Css

def hexDigit (n : Nat) : Char :=
  if n < 10 then Char.ofNat (48 + n) else Char.ofNat (87 + n)

/-- An escape by number.  The blank ends it. -/
def numberEscape (c : Char) : List Char :=
  let n := c.toNat
  let digits := if 15 < n then [hexDigit (n / 16), hexDigit (n % 16)] else [hexDigit n]
  '\\' :: digits ++ [' ']

def isControl (c : Char) : Bool :=
  c.toNat < 0x20 || c.toNat == 0x7f

def spellNameChar (c : Char) : List Char :=
  if isNameChar c then [c]
  else if c == '\x00' then [replacement]
  else if isControl c then numberEscape c
  else ['\\', c]

def spellName (s : List Char) : List Char :=
  s.flatMap spellNameChar

/-- A name that does not begin like a custom property must not begin with a
digit. -/
def spellIdentStart (s : List Char) : List Char :=
  match s with
  | c :: cs => if c.isDigit then numberEscape c ++ spellName cs else spellName s
  | [] => []

def spellIdent (s : List Char) : List Char :=
  match s with
  | '-' :: '-' :: cs => '-' :: '-' :: spellName cs
  | ['-'] => ['\\', '-']
  | '-' :: cs => '-' :: spellIdentStart cs
  | cs => spellIdentStart cs

def spellStringChar (c : Char) : List Char :=
  if c == '"' || c == '\\' then ['\\', c]
  else if c == '\x00' then [replacement]
  else if isControl c then numberEscape c
  else [c]

def spellString (s : List Char) : List Char :=
  '"' :: s.flatMap spellStringChar ++ ['"']

end Css
end SvgCompact
