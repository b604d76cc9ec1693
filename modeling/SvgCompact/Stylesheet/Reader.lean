import SvgCompact.Stylesheet.Basic
import SvgCompact.Text.Measure

/-!
Reading style sheets.

Rules are read from components, so brackets, strings and comments hide what they
hold.  Malformed declarations are left out; a malformed rule makes the whole
sheet unreadable.
-/

namespace SvgCompact
namespace Stylesheet

open Css

/-! ## Positions and faults -/

/-- A place in a text: the line, counted from zero, and the column in units of
UTF-16, counted from one. -/
structure Position where
  line : Nat
  column : Nat
deriving DecidableEq, Repr

namespace Position

def start : Position := ⟨0, 1⟩

/-- The place behind some text.  A carriage return and its line feed end one
line. -/
def advance (p : Position) : List Char → Position
  | [] => p
  | '\r' :: '\n' :: cs => advance ⟨p.line + 1, 1⟩ cs
  | c :: cs =>
    if Text.isLineEnd c then advance ⟨p.line + 1, 1⟩ cs
    else advance ⟨p.line, p.column + Text.units16 [c]⟩ cs

end Position

inductive Fault
  | noSelector
  | strayAtStart
  | strayInSelector
  | noBlock
  | unbalanced
  | malformed (name : String)
deriving DecidableEq, Repr

def Fault.message : Fault → String
  | noSelector => "rule without selector"
  | strayAtStart => "unexpected token at rule start"
  | strayInSelector => "unexpected token in selector"
  | noBlock => "selector without declaration block"
  | unbalanced => "unbalanced `\x7d` in at-rule prelude"
  | malformed name => "malformed @" ++ name ++ " block"

structure Error where
  fault : Fault
  position : Position
deriving DecidableEq, Repr

namespace Error

def line (e : Error) : Nat := e.position.line + 1

def column (e : Error) : Nat := e.position.column

def message (e : Error) : String :=
  "stylesheet parse error at line " ++ toString e.line ++ ", column " ++ toString e.column
    ++ ": " ++ e.fault.message

end Error

/-! ## Selector lists -/

/-- Cuts a selector list at the commas outside blocks. -/
def splitSelectors (s : List Char) : List String :=
  ((components s).splitOnP Component.isComma).map fun part =>
    String.ofList (Text.squeeze (uncommented (Component.textOf part)))

/-! ## Rules -/

/-- The at-rules that hold rules. -/
def groupingNames : List String :=
  ["media", "supports", "document", "-moz-document", "container", "layer", "scope"]

def isGrouping (name : String) : Bool :=
  groupingNames.any (Text.sameWord name)

/-- What has begun and waits for its end. -/
inductive Begun
  | nothing
  /-- A style rule, with the text of its selectors so far. -/
  | selectors (text : List Char)
  /-- An at-rule, with the text of its prelude so far. -/
  | atRule (name : String) (text : List Char)

/-- A refused list of rules: why, where, and what was not looked at. -/
structure Refusal where
  error : Error
  left : List Component

/-- The rules of a list and the first number that is free behind them. -/
abbrev Result := Except Refusal (List Rule × Nat)

def refuse (fault : Fault) (position : Position) (left : List Component) : Result :=
  .error ⟨⟨fault, position⟩, left⟩

def prepend (rule : Rule) (result : Result) : Result :=
  result.map fun (rules, number) => (rule :: rules, number)

/-- Whether a component is a closing curly bracket without its partner. -/
def isStray : Component → Bool
  | .token ⟨.closing .curly, _⟩ => true
  | _ => false

/-- What a component begins where a rule may begin. -/
def Begun.first (c : Component) : Begun :=
  match c.head with
  | .blank _ => .nothing
  | .comment _ => .nothing
  | .commentOpen => .nothing
  | .commentClose => .nothing
  | .atKeyword name => .atRule name []
  | _ => .selectors c.text

/-- The selectors of a rule from the text in front of its body. -/
def selectorsOf (text : List Char) : List String :=
  splitSelectors (Text.trimEndBy (· == '\x7b') text)

def preludeOf (text : List Char) : String :=
  String.ofList (Text.squeeze text)

/-- The prelude in front of a body or a semicolon, which is not part of it. -/
def preludeBefore (mark : Char) (text : List Char) : String :=
  preludeOf (Text.trimEndBy (· == mark) text)

/-- Reads rules.  A fault in a group counts as its own only if nothing is left
behind it in the group; otherwise the group is malformed. -/
def readRules (begun : Begun) (position : Position) (number : Nat) :
    List Component → Result
  | [] =>
    match begun with
    | .nothing => .ok ([], number)
    | .selectors _ => refuse .noBlock position []
    | .atRule name text => .ok ([.statement name (preludeOf text)], number)
  | .block opener .curly body closer :: rest =>
    let inside := position.advance opener.text
    let behind := (inside.advance (Component.textOf body)).advance closer
    match begun with
    | .nothing => refuse .noSelector inside rest
    | .selectors text =>
      let rule := .style ⟨number, selectorsOf text, declarationsOf body⟩
      prepend rule (readRules .nothing behind (number + 1) rest)
    | .atRule name text =>
      let prelude := preludeBefore '\x7b' text
      if isGrouping name then
        match readRules .nothing inside number body with
        | .ok (rules, number) =>
          prepend (.group name prelude rules) (readRules .nothing behind number rest)
        | .error refusal =>
          if refusal.left.all Component.isSpacing then .error ⟨refusal.error, rest⟩
          else refuse (.malformed name) inside rest
      else
        prepend (.verbatim name prelude (String.ofList (Component.textOf body)))
          (readRules .nothing behind number rest)
  | c :: rest =>
    let behind := position.advance c.text
    match begun with
    | .nothing =>
      if isStray c || c.isSemicolon then refuse .strayAtStart behind rest
      else readRules (.first c) behind number rest
    | .selectors text =>
      if isStray c || c.isSemicolon then refuse .strayInSelector behind rest
      else readRules (.selectors (text ++ c.text)) behind number rest
    | .atRule name text =>
      if isStray c then refuse .unbalanced behind rest
      else if c.isSemicolon then
        prepend (.statement name (preludeBefore ';' text)) (readRules .nothing behind number rest)
      else readRules (.atRule name (text ++ c.text)) behind number rest

def read (s : String) : Except Error Stylesheet :=
  match readRules .nothing Position.start 0 (components s.toList) with
  | .ok (rules, _) => .ok ⟨rules⟩
  | .error refusal => .error refusal.error

end Stylesheet
end SvgCompact
