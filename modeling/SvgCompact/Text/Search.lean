/-!
Finding a text inside another, and cutting at what was found.
-/

namespace SvgCompact
namespace Text

/-- The parts before and after the first character in `p`, without it. -/
def splitAt? (p : Char → Bool) : List Char → Option (List Char × List Char)
  | [] => none
  | c :: cs =>
    if p c then some ([], cs)
    else (splitAt? p cs).map fun (before, after) => (c :: before, after)

/-- The parts before and after the last character in `p`, without it. -/
def splitAtLast? (p : Char → Bool) : List Char → Option (List Char × List Char)
  | [] => none
  | c :: cs =>
    match splitAtLast? p cs with
    | some (before, after) => some (c :: before, after)
    | none => if p c then some ([], cs) else none

/-- What follows `start` in a text that begins with it. -/
def after? (start : List Char) (s : List Char) : Option (List Char) :=
  if start.isPrefixOf s then some (s.drop start.length) else none

/-- The part before the first `mark`, and the part from it on. -/
def splitBefore? (mark : List Char) : List Char → Option (List Char × List Char)
  | [] => if mark.isEmpty then some ([], []) else none
  | c :: cs =>
    if mark.isPrefixOf (c :: cs) then some ([], c :: cs)
    else (splitBefore? mark cs).map fun (before, rest) => (c :: before, rest)

/-- The parts before and after the first `mark`. -/
def cut? (mark s : List Char) : Option (List Char × List Char) :=
  (splitBefore? mark s).map fun (before, rest) => (before, rest.drop mark.length)

def occursIn (part s : List Char) : Bool :=
  (splitBefore? part s).isSome

/-- Lower case for the letters A to Z only. -/
def lower (s : List Char) : List Char :=
  s.map Char.toLower

/-- Equality up to the case of the letters A to Z. -/
def sameLetters (s t : List Char) : Bool :=
  lower s == lower t

def sameWord (s t : String) : Bool :=
  sameLetters s.toList t.toList

def lowerWord (s : String) : String :=
  String.ofList (lower s.toList)

def occursInWord (part s : String) : Bool :=
  occursIn part.toList s.toList

end Text
end SvgCompact
