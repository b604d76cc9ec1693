import SvgCompact.Text.Blank

/-!
Class lists: ordered sets of tokens.
-/

namespace SvgCompact

structure ClassList where
  tokens : List String
deriving DecidableEq, Repr

namespace ClassList

def empty : ClassList := ⟨[]⟩

def contains (classes : ClassList) (token : String) : Bool :=
  classes.tokens.contains token

/-- Whether `add` would change the list. -/
def accepts (classes : ClassList) (token : String) : Bool :=
  !token.isEmpty && !classes.contains token

/-- Adds a token at the end.  Empty tokens and tokens that are there already
change nothing. -/
def add (classes : ClassList) (token : String) : ClassList :=
  if classes.accepts token then ⟨classes.tokens ++ [token]⟩ else classes

def erase (classes : ClassList) (token : String) : ClassList :=
  ⟨classes.tokens.filter (· != token)⟩

def read (s : String) : ClassList :=
  (Text.words s.toList).foldl (fun classes word => classes.add (String.ofList word)) empty

def write (classes : ClassList) : String :=
  " ".intercalate classes.tokens

end ClassList
end SvgCompact
