import SvgCompact.Css.Component

/-!
The class names and ids that a text can refer to.

Names are taken from tokens, not from selectors, so text that is no selector and
whole style sheets can be searched too.  Colors in declarations show up as ids;
the names are used only to keep things.
-/

namespace SvgCompact

/-- Names without order; they may be listed twice. -/
structure SelectorNames where
  classes : List String
  ids : List String

namespace SelectorNames

open Css

def empty : SelectorNames := ⟨[], []⟩

def append (a b : SelectorNames) : SelectorNames :=
  ⟨a.classes ++ b.classes, a.ids ++ b.ids⟩

def addToken (afterStop : Bool) (token : Token) (names : SelectorNames) : SelectorNames :=
  match token with
  | .ident name => if afterStop then { names with classes := name :: names.classes } else names
  | .idHash name => { names with ids := name :: names.ids }
  | .hash name => { names with ids := name :: names.ids }
  | _ => names

def isStop : Token → Bool
  | .delim '.' => true
  | _ => false

/-- The names in components, blocks included.  The flag says whether a full stop
comes right before the first one, comments apart. -/
def ofComponents (afterStop : Bool) : List Component → SelectorNames
  | [] => empty
  | .token lexeme :: rest =>
    if lexeme.token.isComment then ofComponents afterStop rest
    else addToken afterStop lexeme.token (ofComponents (isStop lexeme.token) rest)
  | .block _ _ body _ :: rest =>
    (ofComponents false body).append (ofComponents false rest)

def ofText (s : String) : SelectorNames :=
  ofComponents false (components s.toList)

end SelectorNames
end SvgCompact
