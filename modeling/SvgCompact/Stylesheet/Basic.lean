import SvgCompact.Css.Declaration

/-!
Style sheets.

Selectors and the preludes of at-rules are kept as text.  Rules are nested where
an at-rule groups them; the bodies of other at-rules are kept as they stand.
-/

namespace SvgCompact

/-- A rule such as `a, b { fill: red }`.  The number tells it from the other rules
of its sheet. -/
structure StyleRule where
  number : Nat
  selectors : List String
  declarations : List Declaration
deriving DecidableEq, Repr

inductive Rule
  | style (r : StyleRule)
  /-- An at-rule without a body. -/
  | statement (name prelude : String)
  | group (name prelude : String) (rules : List Rule)
  /-- An at-rule whose body is kept as text. -/
  | verbatim (name prelude body : String)

structure Stylesheet where
  rules : List Rule

namespace Rule

/-- The text by which the rules inside an at-rule are filtered: for media their
query, for others the name as well. -/
def context (name prelude : String) : String :=
  if Text.sameWord name "media" then prelude
  else if prelude.isEmpty then "@" ++ name
  else "@" ++ name ++ " " ++ prelude

mutual

/-- The style rules of a rule, each with the contexts around it, outermost
first. -/
def styleRules (contexts : List String) : Rule → List (List String × StyleRule)
  | style r => [(contexts, r)]
  | statement _ _ => []
  | group name prelude rules => styleRulesOf (contexts ++ [context name prelude]) rules
  | verbatim _ _ _ => []

def styleRulesOf (contexts : List String) : List Rule → List (List String × StyleRule)
  | [] => []
  | r :: rest => styleRules contexts r ++ styleRulesOf contexts rest

end

/-- Where a selector stands: the number of its rule and its place there. -/
abbrev Address := Nat × Nat

/-- The elements of a list whose place is not dropped, counted from `start`. -/
def keepPlaces (drop : Nat → Bool) (start : Nat) : List String → List String
  | [] => []
  | s :: rest =>
    if drop start then keepPlaces drop (start + 1) rest
    else s :: keepPlaces drop (start + 1) rest

mutual

/-- Drops selectors by their addresses.  Rules stay. -/
def withoutSelectors (removed : List Address) : Rule → Rule
  | style r =>
    style { r with selectors := keepPlaces (fun i => removed.contains (r.number, i)) 0 r.selectors }
  | statement name prelude => statement name prelude
  | group name prelude rules => group name prelude (withoutSelectorsOf removed rules)
  | verbatim name prelude body => verbatim name prelude body

def withoutSelectorsOf (removed : List Address) : List Rule → List Rule
  | [] => []
  | r :: rest => withoutSelectors removed r :: withoutSelectorsOf removed rest

end

mutual

/-- A rule without what is empty in it; nothing if nothing is left. -/
def pruned? : Rule → Option Rule
  | style r => if r.selectors.isEmpty then none else some (style r)
  | statement name prelude => some (statement name prelude)
  | group name prelude rules =>
    match prunedOf rules with
    | [] => none
    | rest => some (group name prelude rest)
  | verbatim name prelude body => some (verbatim name prelude body)

def prunedOf : List Rule → List Rule
  | [] => []
  | r :: rest =>
    match pruned? r with
    | some r => r :: prunedOf rest
    | none => prunedOf rest

end

/-! ## Writing -/

def writeHead (name prelude : String) : List Char :=
  '@' :: name.toList ++ if prelude.isEmpty then [] else ' ' :: prelude.toList

mutual

def write : Rule → List Char
  | style r =>
    [','].intercalate (r.selectors.map String.toList) ++ '\x7b'
      :: Css.writeDeclarations r.declarations ++ ['\x7d']
  | statement name prelude => writeHead name prelude ++ [';']
  | group name prelude rules => writeHead name prelude ++ '\x7b' :: writeAll rules ++ ['\x7d']
  | verbatim name prelude body =>
    writeHead name prelude ++ '\x7b' :: Text.trim body.toList ++ ['\x7d']

def writeAll : List Rule → List Char
  | [] => []
  | r :: rest => write r ++ writeAll rest

end

end Rule

namespace Stylesheet

def isEmpty (sheet : Stylesheet) : Bool :=
  sheet.rules.isEmpty

def styleRules (sheet : Stylesheet) : List (List String × StyleRule) :=
  Rule.styleRulesOf [] sheet.rules

def withoutSelectors (removed : List Rule.Address) (sheet : Stylesheet) : Stylesheet :=
  ⟨Rule.withoutSelectorsOf removed sheet.rules⟩

/-- Removes style rules without selectors, and groups in which nothing is left. -/
def pruned (sheet : Stylesheet) : Stylesheet :=
  ⟨Rule.prunedOf sheet.rules⟩

def write (sheet : Stylesheet) : String :=
  String.ofList (Rule.writeAll sheet.rules)

end Stylesheet
end SvgCompact
