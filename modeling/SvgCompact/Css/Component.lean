import SvgCompact.Css.Lexer

/-!
Text as a forest of tokens and bracketed blocks.

A block ends at the bracket that matches its opening one, or at the end of the
text; closing brackets of another kind inside it are plain tokens.  The texts
of the components joined are the text that was read.
-/

namespace SvgCompact
namespace Css

inductive Component
  | token (lexeme : Lexeme)
  /-- The lexeme that opens the block, what it holds, and the text that closes
  it, which is empty when the text ends first. -/
  | block (opener : Lexeme) (bracket : Bracket) (body : List Component) (closer : List Char)

namespace Component

mutual

def text : Component → List Char
  | token lexeme => lexeme.text
  | block opener _ body closer => opener.text ++ textOf body ++ closer

def textOf : List Component → List Char
  | [] => []
  | c :: cs => text c ++ textOf cs

end

/-- The token of a component, for a block the one that opens it. -/
def head : Component → Token
  | token lexeme => lexeme.token
  | block opener _ _ _ => opener.token

def isBlank (c : Component) : Bool :=
  c.head.isBlank

def isComment (c : Component) : Bool :=
  c.head.isComment

/-- Blanks and comments, which stand between other components. -/
def isSpacing (c : Component) : Bool :=
  c.isBlank || c.isComment

def isComma : Component → Bool
  | token ⟨.comma, _⟩ => true
  | _ => false

def isSemicolon : Component → Bool
  | token ⟨.semicolon, _⟩ => true
  | _ => false

/-- A block that is still open: its opening lexeme and, in reverse, what stands
before it. -/
structure Frame where
  opener : Lexeme
  bracket : Bracket
  before : List Component

/-- The open blocks, innermost first, and in reverse what the innermost holds. -/
structure Nesting where
  frames : List Frame
  body : List Component

namespace Nesting

def empty : Nesting := ⟨[], []⟩

def close (p : Nesting) (closer : List Char) : Nesting :=
  match p.frames with
  | [] => p
  | f :: frames => ⟨frames, block f.opener f.bracket p.body.reverse closer :: f.before⟩

def add (p : Nesting) (lexeme : Lexeme) : Nesting :=
  match lexeme.token.opens? with
  | some bracket => ⟨⟨lexeme, bracket, p.body⟩ :: p.frames, []⟩
  | none =>
    match lexeme.token, p.frames with
    | .closing bracket, f :: _ =>
      if bracket = f.bracket then p.close lexeme.text
      else { p with body := token lexeme :: p.body }
    | _, _ => { p with body := token lexeme :: p.body }

def finish (p : Nesting) : List Component :=
  (p.frames.foldl (fun body f => block f.opener f.bracket body.reverse [] :: f.before)
    p.body).reverse

end Nesting

def group (lexemes : List Lexeme) : List Component :=
  (lexemes.foldl Nesting.add Nesting.empty).finish

end Component

def components (s : List Char) : List Component :=
  Component.group (lexemes s)

end Css
end SvgCompact
