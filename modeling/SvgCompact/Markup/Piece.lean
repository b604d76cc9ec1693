import SvgCompact.Markup.Tag

/-!
Markup as a sequence of pieces: tags, text and sections.

`Piece.next` reads the piece at the front of a text.  What pieces may follow one
another is not decided here.
-/

namespace SvgCompact
namespace Markup

inductive Piece
  /-- What follows `<?xml`. -/
  | declaration (content : List Char)
  | instruction (content : List Char)
  | doctype (body : List Char)
  | comment (body : List Char)
  | cdata (body : List Char)
  | text (raw : List Char)
  /-- A start tag without its brackets; an empty one without its slash too. -/
  | start (content : List Char) (isEmpty : Bool)
  | finish (name : List Char)

/-- A piece with the text after it, or a fault with its distance in bytes from
the start of the piece. -/
abbrev PieceResult := Except (Nat × Fault) (Piece × List Char)

/-- The text up to the `>` that ends a tag.  Quotes hide it. -/
def takeTag : Option Char → List Char → Option (List Char × List Char)
  | _, [] => none
  | quote, c :: cs =>
    if quote.isNone && c == '>' then some ([], cs)
    else
      let quote :=
        match quote with
        | none => if c == '"' || c == '\'' then some c else none
        | some q => if c == q then none else some q
      (takeTag quote cs).map fun (content, rest) => (c :: content, rest)

/-- The text up to the `>` that ends a document type, which may hold brackets in
pairs. -/
def takeBalanced : Nat → List Char → Option (List Char × List Char)
  | _, [] => none
  | depth, c :: cs =>
    let more (depth : Nat) : Option (List Char × List Char) :=
      (takeBalanced depth cs).map fun (body, rest) => (c :: body, rest)
    if c == '<' then more (depth + 1)
    else if c == '>' then
      match depth with
      | 0 => some ([], cs)
      | depth + 1 => more depth
    else more depth

/-- The name in an end tag.  Blanks after it do not count, unless there is
nothing else. -/
def finishName (content : List Char) : List Char :=
  let name := Text.trimEndBy Text.isMarkupBlank content
  if name.isEmpty then content else name

namespace Piece

def fault (f : Fault) : PieceResult :=
  .error (0, f)

/-- A comment, from behind `<!-`.  Its two pairs of hyphens do not overlap. -/
def nextComment (cs : List Char) : PieceResult :=
  match cs with
  | '-' :: cs =>
    match Text.cut? "-->".toList cs with
    | some (body, rest) => .ok (comment body, rest)
    | none => fault .openComment
  | _ => fault .openComment

/-- A character data section, from behind `<!`. -/
def nextCData (cs : List Char) : PieceResult :=
  match Text.after? "[CDATA[".toList cs with
  | some cs =>
    match Text.cut? "]]>".toList cs with
    | some (body, rest) => .ok (cdata body, rest)
    | none => fault .openCData
  | none => fault .openCData

/-- A document type, from behind `<!`. -/
def nextDoctype (cs : List Char) : PieceResult :=
  match takeBalanced 0 cs with
  | some (content, rest) =>
    if Text.sameLetters (content.take 7) "doctype".toList then
      let body := skipBlanks (content.drop 7)
      if body.isEmpty then .error (Text.byteSize content + 2, .namelessDoctype)
      else .ok (doctype body, rest)
    else fault .openDoctype
  | none => fault .openDoctype

/-- An instruction or the declaration, from behind `<`. -/
def nextInstruction (cs : List Char) : PieceResult :=
  match Text.cut? "?>".toList cs with
  | some ('?' :: content, rest) =>
    match Text.after? "xml".toList content with
    | some after =>
      if (after.take 1).all Text.isMarkupBlank then .ok (declaration after, rest)
      else .ok (instruction content, rest)
    | none => .ok (instruction content, rest)
  | _ => fault .openInstruction

/-- A tag, from behind `<`. -/
def nextTag (cs : List Char) : PieceResult :=
  match takeTag none cs with
  | none => fault .openTag
  | some ('/' :: content, rest) => .ok (finish (finishName content), rest)
  | some (content, rest) =>
    if content.getLast? = some '/' then .ok (start content.dropLast true, rest)
    else .ok (start content false, rest)

def read (c : Char) (cs : List Char) : PieceResult :=
  if c == '<' then
    match cs with
    | '!' :: '[' :: cs => nextCData ('[' :: cs)
    | '!' :: '-' :: cs => nextComment cs
    | '!' :: d :: cs => if d.toLower == 'd' then nextDoctype (d :: cs) else fault .unknownDeclaration
    | '!' :: [] => fault .unknownDeclaration
    | '?' :: _ => nextInstruction cs
    | _ => nextTag cs
  else
    .ok (text (c :: cs.takeWhile (· != '<')), cs.dropWhile (· != '<'))

/-- The piece that begins with `c`.  The text after it is shorter by what the
piece takes, and by one character at least. -/
def next (c : Char) (cs : List Char) : PieceResult :=
  (read c cs).map fun (piece, rest) => (piece, cs.drop (cs.length - rest.length))

end Piece
end Markup
end SvgCompact
