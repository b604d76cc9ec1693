import SvgCompact.Css.Component
import SvgCompact.Text.Blank

/-!
Declarations such as `fill: red !important`, as style attributes and the bodies
of style rules hold them.
-/

namespace SvgCompact

/-- An important declaration beats a normal one. -/
inductive Priority
  | normal
  | important
deriving DecidableEq, Repr

namespace Priority

def isImportant : Priority → Bool
  | normal => false
  | important => true

/-- Whether `p` wins against `q` whatever the order of their declarations. -/
def beats (p q : Priority) : Bool :=
  p.isImportant && !q.isImportant

end Priority

structure Declaration where
  property : String
  value : String
  priority : Priority
deriving DecidableEq, Repr

namespace Declaration

def write (d : Declaration) : List Char :=
  d.property.toList ++ ':' :: d.value.toList
    ++ (if d.priority.isImportant then "!important".toList else [])

end Declaration

namespace Css

/-- Where a character stands while comments are looked for. -/
inductive Region
  | outside
  | quoted (quote : Char)
  | comment

/-- Drops comments outside quotes.  A backslash protects the next character
inside quotes only. -/
def dropComments : Region → List Char → List Char
  | _, [] => []
  | .outside, '/' :: '*' :: cs => dropComments .comment cs
  | .outside, c :: cs =>
    c :: dropComments (if c == '"' || c == '\'' then .quoted c else .outside) cs
  | .quoted quote, '\\' :: c :: cs => '\\' :: c :: dropComments (.quoted quote) cs
  | .quoted quote, c :: cs =>
    c :: dropComments (if c == quote then .outside else .quoted quote) cs
  | .comment, '*' :: '/' :: cs => dropComments .outside cs
  | .comment, _ :: cs => dropComments .comment cs

def uncommented (s : List Char) : List Char :=
  dropComments .outside s

/-- The priority at the end of a value, and the value without it. -/
def splitPriority (value : List Char) : List Char × Priority :=
  match Text.splitAtLast? (· == '!') value with
  | some (before, after) =>
    if Text.sameLetters (Text.trim after) "important".toList then
      (Text.trimEnd before, .important)
    else (value, .normal)
  | none => (value, .normal)

/-- Reads one declaration.  The names of custom properties keep their case. -/
def readDeclaration? (s : List Char) : Option Declaration :=
  match Text.splitAt? (· == ':') s with
  | none => none
  | some (before, after) =>
    let name := Text.trim before
    let (value, priority) := splitPriority (Text.trim after)
    if name.isEmpty || name.any Text.isBlank || value.isEmpty then none
    else
      let name := if "--".toList.isPrefixOf name then name else Text.lower name
      some ⟨String.ofList name, String.ofList value, priority⟩

/-- The declarations between the semicolons of a block.  Malformed ones are
left out. -/
def declarationsOf (body : List Component) : List Declaration :=
  (body.splitOnP Component.isSemicolon).filterMap fun part =>
    readDeclaration? (uncommented (Component.textOf part))

def readDeclarations (s : List Char) : List Declaration :=
  declarationsOf (components s)

def writeDeclarations (ds : List Declaration) : List Char :=
  [';'].intercalate (ds.map Declaration.write)

end Css
end SvgCompact
