/-!
Blank characters and what is cut at them.

Three classes are in use, each inside the next: markup separates names and
attributes by `isMarkupBlank`, style sheets and path data by `isSpace`, and text
is trimmed by `isBlank`.
-/

namespace SvgCompact
namespace Text

/-- Space, tab, line feed and carriage return. -/
def isMarkupBlank (c : Char) : Bool :=
  c == ' ' || c == '\t' || c == '\n' || c == '\r'

/-- The blanks of markup and form feed. -/
def isSpace (c : Char) : Bool :=
  isMarkupBlank c || c == '\x0c'

/-- The characters with the Unicode property `White_Space`. -/
def isBlank (c : Char) : Bool :=
  let n := c.toNat
  (9 ≤ n && n ≤ 13) || n == 0x20 || n == 0x85 || n == 0xa0 || n == 0x1680
    || (0x2000 ≤ n && n ≤ 0x200a) || n == 0x2028 || n == 0x2029 || n == 0x202f
    || n == 0x205f || n == 0x3000

/-- The characters that end a line in a style sheet. -/
def isLineEnd (c : Char) : Bool :=
  c == '\n' || c == '\r' || c == '\x0c'

/-- Drops the trailing characters in `p`. -/
def trimEndBy (p : Char → Bool) (s : List Char) : List Char :=
  (s.reverse.dropWhile p).reverse

/-- Drops the characters in `p` at both ends. -/
def trimBy (p : Char → Bool) (s : List Char) : List Char :=
  trimEndBy p (s.dropWhile p)

def trim (s : List Char) : List Char :=
  trimBy isBlank s

def trimEnd (s : List Char) : List Char :=
  trimEndBy isBlank s

/-- The maximal runs of characters outside `isSpace`, in order. -/
def words (s : List Char) : List (List Char) :=
  (s.splitOnP isSpace).filter (!·.isEmpty)

/-- Joins the words by single spaces. -/
def squeeze (s : List Char) : List Char :=
  [' '].intercalate (words s)

end Text
end SvgCompact
