import SvgCompact.Css.Token
import SvgCompact.Decimal.Reader
import SvgCompact.Text.Blank

/-!
Cutting text into tokens.

`lexemes` cuts a text completely, and the texts of the lexemes joined are the
text.  Every text has tokens: brackets need not match, and what is open at the
end of the text ends there.
-/

namespace SvgCompact
namespace Css

/-! ## Names and escapes -/

/-- Stands for what cannot be written. -/
def replacement : Char := '\ufffd'

def isHexDigit (c : Char) : Bool :=
  c.isDigit || ('a' ≤ c && c ≤ 'f') || ('A' ≤ c && c ≤ 'F')

def hexValue (digits : List Char) : Nat :=
  digits.foldl (fun n c =>
    16 * n + (if c.isDigit then c.toNat - 48 else c.toLower.toNat - 87)) 0

/-- The character with a number, or the replacement when there is none. -/
def charOf (n : Nat) : Char :=
  if n ≠ 0 ∧ n.isValidChar then Char.ofNat n else replacement

/-- The length of one blank at the front, a carriage return and its line feed
together. -/
def blankLength : List Char → Nat
  | '\r' :: '\n' :: _ => 2
  | c :: _ => if Text.isSpace c then 1 else 0
  | [] => 0

/-- What a backslash in front of `cs` stands for, and how many characters of
`cs` it takes: up to six hexadecimal digits with a blank after them, or one
character. -/
def escape : List Char → Char × Nat
  | [] => (replacement, 0)
  | c :: cs =>
    if isHexDigit c then
      let digits := ((c :: cs).take 6).takeWhile isHexDigit
      (charOf (hexValue digits), digits.length + blankLength ((c :: cs).drop digits.length))
    else if c == '\x00' then (replacement, 1)
    else (c, 1)

def startsLine : List Char → Bool
  | c :: _ => Text.isLineEnd c
  | [] => false

def isNameStart (c : Char) : Bool :=
  c.isAlpha || c == '_' || c == '\x00' || 0x80 ≤ c.toNat

/-- The characters of names, escapes and the null character apart. -/
def isNameChar (c : Char) : Bool :=
  c.isAlphanum || c == '_' || c == '-' || 0x80 ≤ c.toNat

/-- Whether an identifier begins here.  After a hyphen a backslash is enough,
even at the end of a line. -/
def startsIdent : List Char → Bool
  | '-' :: c :: _ => isNameStart c || c == '-' || c == '\\'
  | '\\' :: cs => !startsLine cs
  | c :: _ => isNameStart c
  | [] => false

/-- The longest name at the front, and the text after it. -/
def takeName : List Char → List Char × List Char
  | [] => ([], [])
  | c :: cs =>
    if isNameChar c then
      let (name, rest) := takeName cs
      (c :: name, rest)
    else if c == '\x00' then
      let (name, rest) := takeName cs
      (replacement :: name, rest)
    else if c == '\\' && !startsLine cs then
      let (name, rest) := takeName (cs.drop (escape cs).2)
      ((escape cs).1 :: name, rest)
    else ([], c :: cs)
termination_by cs => cs.length
decreasing_by all_goals simp [List.length_drop]; try omega

/-! ## Strings, comments and addresses -/

/-- The text up to a closing quote.  A line end outside an escape breaks the
string and stays in the rest; the flag tells a whole string from a broken one. -/
def takeQuoted (quote : Char) : List Char → Bool × List Char × List Char
  | [] => (true, [], [])
  | c :: cs =>
    if c == quote then (true, [], cs)
    else if Text.isLineEnd c then (false, [], c :: cs)
    else if c == '\\' then
      if cs.isEmpty then (true, [], [])
      else if startsLine cs then takeQuoted quote (cs.drop (blankLength cs))
      else
        let (whole, text, rest) := takeQuoted quote (cs.drop (escape cs).2)
        (whole, (escape cs).1 :: text, rest)
    else
      let (whole, text, rest) := takeQuoted quote cs
      (whole, (if c == '\x00' then replacement else c) :: text, rest)
termination_by cs => cs.length
decreasing_by all_goals simp [List.length_drop]; try omega

/-- The text up to the end of a comment that is already open. -/
def takeComment : List Char → List Char × List Char
  | [] => ([], [])
  | '*' :: '/' :: cs => ([], cs)
  | c :: cs =>
    let (text, rest) := takeComment cs
    (c :: text, rest)

/-- The characters that spoil an address. -/
def isBadInUrl (c : Char) : Bool :=
  let n := c.toNat
  (1 ≤ n && n ≤ 8) || n == 0xb || (0xe ≤ n && n ≤ 0x1f) || n == 0x7f
    || c == '"' || c == '\'' || c == '('

/-- The remains of a spoiled address, up to a closing bracket that is not
escaped. -/
def takeBadUrl : List Char → List Char × List Char
  | [] => ([], [])
  | ')' :: cs => ([], cs)
  | '\\' :: ')' :: cs =>
    let (text, rest) := takeBadUrl cs
    ('\\' :: ')' :: text, rest)
  | '\\' :: '\\' :: cs =>
    let (text, rest) := takeBadUrl cs
    ('\\' :: '\\' :: text, rest)
  | c :: cs =>
    let (text, rest) := takeBadUrl cs
    (c :: text, rest)

/-- What is found of an address: all of it, or the point from which it is
spoiled. -/
inductive UrlEnd
  | whole (text rest : List Char)
  | spoiled (rest : List Char)

/-- The end of an address after its first blank: blanks and the bracket. -/
def takeUrlEnd : List Char → UrlEnd
  | [] => .whole [] []
  | c :: cs =>
    if c == ')' then .whole [] cs
    else if Text.isSpace c then takeUrlEnd cs
    else .spoiled cs

/-- An address from its first printed character on. -/
def takeUrl : List Char → UrlEnd
  | [] => .whole [] []
  | c :: cs =>
    let keep (e : Char) : UrlEnd → UrlEnd
      | .whole text rest => .whole (e :: text) rest
      | .spoiled rest => .spoiled rest
    if c == ')' then .whole [] cs
    else if Text.isSpace c then takeUrlEnd cs
    else if isBadInUrl c then .spoiled cs
    else if c == '\\' then
      if startsLine cs then .spoiled cs
      else keep (escape cs).1 (takeUrl (cs.drop (escape cs).2))
    else keep (if c == '\x00' then replacement else c) (takeUrl cs)
termination_by cs => cs.length
decreasing_by all_goals simp [List.length_drop]; try omega

/-- The token after `url(`, if it is an address and not a function with a
quoted argument.  Blanks that reach the end of the text are not part of it. -/
def urlToken? (cs : List Char) : Option (Token × List Char) :=
  match cs.dropWhile Text.isSpace with
  | [] => some (.url "", cs)
  | c :: rest =>
    if c == '"' || c == '\'' then none
    else if c == ')' then some (.url "", rest)
    else match takeUrl (c :: rest) with
      | .whole text rest => some (.url (String.ofList text), rest)
      | .spoiled after =>
        let seen := (c :: rest).take ((c :: rest).length - after.length)
        let (text, rest) := takeBadUrl after
        some (.badUrl (String.ofList (seen ++ text)), rest)

/-! ## Numbers -/

/-- The value of the digits after a point, each with its own power of ten. -/
def fractionValue (digits : List Char) : Float :=
  (digits.foldl (fun (sum, factor) c =>
    (sum + Float.ofNat (c.toNat - 48) * factor, factor * 0.1)) (0.0, 0.1)).1

def wholeValue (digits : List Char) : Float :=
  digits.foldl (fun n c => n * 10.0 + Float.ofNat (c.toNat - 48)) 0.0

/-- Cuts an integer off at the ends of the 32 bit range. -/
def clamp32 (n : Int) : Int :=
  max (-2147483648) (min 2147483647 n)

/-- Ten to the power that the digits of an exponent spell, as the nearest double.
The power 23 lies half-way between two doubles, and 210 nearly so; the greater
one stands for each of them. -/
def powerOfTen (negative : Bool) (digits : List Char) : Float :=
  let n := Decimal.ofDigits digits
  if negative then Decimal.scientific 1 (-n)
  else if n = 23 then 1.0000000000000001e23
  else if n = 210 then 1.0000000000000001e210
  else Decimal.scientific 1 n

/-- The exponent at the front: its sign, its digits and the text after it. -/
def takeExponent? : List Char → Option (Bool × List Char × List Char)
  | c :: cs =>
    if c == 'e' || c == 'E' then
      let (negative, rest) := Decimal.takeSign cs
      let digits := rest.takeWhile Char.isDigit
      if digits.isEmpty then none
      else some (negative, digits, rest.dropWhile Char.isDigit)
    else none
  | [] => none

/-- The digits of a fraction at the front, with the text after them. -/
def takeFraction? : List Char → Option (List Char × List Char)
  | '.' :: cs =>
    let digits := cs.takeWhile Char.isDigit
    if digits.isEmpty then none else some (digits, cs.dropWhile Char.isDigit)
  | _ => none

/-- Whether a number begins here, the sign included. -/
def startsNumber (cs : List Char) : Bool :=
  match (Decimal.takeSign cs).2 with
  | '.' :: c :: _ => c.isDigit
  | c :: _ => c.isDigit
  | [] => false

/-- The number at the front.  A per cent sign or a unit belongs to it. -/
def takeNumeric (cs : List Char) : Token × List Char :=
  let (negative, unsigned) := Decimal.takeSign cs
  let signed := unsigned.length < cs.length
  let sign : Float := if negative then -1.0 else 1.0
  let ahead := unsigned.takeWhile Char.isDigit
  let afterWhole := unsigned.dropWhile Char.isDigit
  let (behind, afterFraction) := (takeFraction? afterWhole).getD ([], afterWhole)
  let plain := sign * (wholeValue ahead + fractionValue behind)
  let (value, rest, exact) :=
    match takeExponent? afterFraction with
    | some (down, digits, rest) => (plain * powerOfTen down digits, rest, false)
    | none => (plain, afterFraction, behind.isEmpty)
  let whole : Int := Decimal.ofDigits ahead
  let whole? := if exact then some (clamp32 (if negative then -whole else whole)) else none
  match rest with
  | '%' :: rest => (.percentage ⟨signed, value / 100.0, whole?⟩, rest)
  | _ =>
    if startsIdent rest then
      let (unit, rest) := takeName rest
      (.dimension ⟨signed, value, whole?⟩ (String.ofList unit), rest)
    else (.number ⟨signed, value, whole?⟩, rest)

/-! ## Tokens -/

/-- A name, or a function when a bracket follows. -/
def takeIdentLike (cs : List Char) : Token × List Char :=
  let (name, rest) := takeName cs
  match rest with
  | '(' :: rest =>
    if Text.sameLetters name "url".toList then
      (urlToken? rest).getD (.function (String.ofList name), rest)
    else (.function (String.ofList name), rest)
  | _ => (.ident (String.ofList name), rest)

/-- A sign of one character, or the operator that it forms with an equals sign. -/
def signOr (c : Char) (sign : MatchSign) : List Char → Token × List Char
  | '=' :: cs => (.matching sign, cs)
  | cs => (.delim c, cs)

/-- The token that begins with `c`, and the text after it. -/
def start (c : Char) (cs : List Char) : Token × List Char :=
  let named (name : String → Token) : Token × List Char :=
    let (text, rest) := takeName cs
    (name (String.ofList text), rest)
  if Text.isSpace c then
    (.blank (String.ofList (c :: cs.takeWhile Text.isSpace)), cs.dropWhile Text.isSpace)
  else if c == '"' || c == '\'' then
    let (whole, text, rest) := takeQuoted c cs
    ((if whole then Token.quoted else Token.badQuoted) (String.ofList text), rest)
  else if startsNumber (c :: cs) then takeNumeric (c :: cs)
  else match c with
    | '#' =>
      if startsIdent cs then named .idHash
      else match cs with
        | d :: _ => if d.isDigit || d == '-' then named .hash else (.delim '#', cs)
        | [] => (.delim '#', cs)
    | '@' => if startsIdent cs then named .atKeyword else (.delim '@', cs)
    | '~' => signOr c .includes cs
    | '|' => signOr c .dash cs
    | '^' => signOr c .start cs
    | '$' => signOr c .finish cs
    | '*' => signOr c .substring cs
    | '(' => (.opening .round, cs)
    | '[' => (.opening .square, cs)
    | '\x7b' => (.opening .curly, cs)
    | ')' => (.closing .round, cs)
    | ']' => (.closing .square, cs)
    | '\x7d' => (.closing .curly, cs)
    | ':' => (.colon, cs)
    | ';' => (.semicolon, cs)
    | ',' => (.comma, cs)
    | '-' =>
      match Text.after? "->".toList cs with
      | some rest => (.commentClose, rest)
      | none => if startsIdent (c :: cs) then takeIdentLike (c :: cs) else (.delim c, cs)
    | '<' =>
      match Text.after? "!--".toList cs with
      | some rest => (.commentOpen, rest)
      | none => (.delim c, cs)
    | '/' =>
      match cs with
      | '*' :: cs =>
        let (text, rest) := takeComment cs
        (.comment (String.ofList text), rest)
      | _ => (.delim c, cs)
    | _ => if startsIdent (c :: cs) then takeIdentLike (c :: cs) else (.delim c, cs)

/-- The first lexeme of a text that begins with `c`, and the text after it. -/
def first (c : Char) (cs : List Char) : Lexeme × List Char :=
  let (token, rest) := start c cs
  let more := cs.length - rest.length
  (⟨token, c :: cs.take more⟩, cs.drop more)

def lexemes : List Char → List Lexeme
  | [] => []
  | c :: cs => (first c cs).1 :: lexemes (first c cs).2
termination_by cs => cs.length
decreasing_by simp only [first, List.length_drop, List.length_cons]; omega

end Css
end SvgCompact
