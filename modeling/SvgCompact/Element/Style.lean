import SvgCompact.Css.Declaration

/-!
Inline styles: declaration lists with at most one entry per property.
-/

namespace SvgCompact

structure Style where
  declarations : List Declaration
deriving DecidableEq, Repr

namespace Style

def empty : Style := ⟨[]⟩

def find? (style : Style) (property : String) : Option Declaration :=
  style.declarations.find? (·.property == property)

def get? (style : Style) (property : String) : Option String :=
  (style.find? property).map (·.value)

def priority? (style : Style) (property : String) : Option Priority :=
  (style.find? property).map (·.priority)

/-- Puts a declaration in the place of the one for its property, or at the end. -/
def set (style : Style) (d : Declaration) : Style :=
  match style.declarations.findIdx? (·.property == d.property) with
  | some i => ⟨style.declarations.set i d⟩
  | none => ⟨style.declarations ++ [d]⟩

/-- Sets a declaration unless the one for its property wins by priority. -/
def cascade (style : Style) (d : Declaration) : Style :=
  match style.find? d.property with
  | some held => if held.priority.beats d.priority then style else style.set d
  | none => style.set d

def ofDeclarations (ds : List Declaration) : Style :=
  ds.foldl cascade empty

def read (s : String) : Style :=
  ofDeclarations (Css.readDeclarations s.toList)

def write (style : Style) : String :=
  String.ofList (Css.writeDeclarations style.declarations)

def erase (style : Style) (property : String) : Style :=
  ⟨style.declarations.eraseP (·.property == property)⟩

def filter (p : Declaration → Bool) (style : Style) : Style :=
  ⟨style.declarations.filter p⟩

/-- Rewrites values; properties and priorities stay. -/
def mapValues (f : String → String → String) (style : Style) : Style :=
  ⟨style.declarations.map fun d => { d with value := f d.property d.value }⟩

def isEmpty (style : Style) : Bool :=
  style.declarations.isEmpty

end Style
end SvgCompact
