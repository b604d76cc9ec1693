import SvgCompact.Element.Name
import SvgCompact.Element.Style
import SvgCompact.Element.ClassList

/-!
Elements.

The `class` and `style` attributes have a second form, a class list and a
style.  Every operation that writes one of the two forms refreshes the other.
-/

namespace SvgCompact

structure Element where
  name : QName
  attributes : List Attribute
  classes : ClassList
  style : Style
deriving DecidableEq, Repr

namespace Element

def bare (name : QName) : Element :=
  ⟨name, [], ClassList.empty, Style.empty⟩

/-! ## Looking up -/

def isNamed (e : Element) (name : String) : Bool :=
  e.name.isNamed name

def isAnyOf (e : Element) (names : List String) : Bool :=
  names.any e.isNamed

def attribute? (e : Element) (name : String) : Option Attribute :=
  e.attributes.find? (·.name.isNamed name)

def attr? (e : Element) (name : String) : Option String :=
  (e.attribute? name).map (·.value)

def hasAttr (e : Element) (name : String) : Bool :=
  (e.attribute? name).isSome

def hasClass (e : Element) (token : String) : Bool :=
  e.classes.contains token

/-! ## Keeping the two forms equal -/

def refreshClasses (e : Element) : Element :=
  { e with classes := ((e.attr? "class").map ClassList.read).getD ClassList.empty }

def refreshStyle (e : Element) : Element :=
  { e with style := ((e.attr? "style").map Style.read).getD Style.empty }

/-- Reads the second form again after the attribute `name` changed. -/
def refresh (e : Element) (name : QName) : Element :=
  if name == QName.plain "class" then e.refreshClasses
  else if name == QName.plain "style" then e.refreshStyle
  else e

/-- Writes the text of a second form into its attribute; an empty text removes
the attribute. -/
def writeBack (e : Element) (name value : String) : Element :=
  match e.attributes.findIdx? (·.name.isNamed name) with
  | some i =>
    if value.isEmpty then { e with attributes := e.attributes.eraseIdx i }
    else { e with attributes := e.attributes.modify i fun a => { a with value } }
  | none =>
    if value.isEmpty then e
    else { e with attributes := e.attributes ++ [⟨QName.read name, value⟩] }

def writeClasses (e : Element) : Element :=
  e.writeBack "class" e.classes.write

def writeStyle (e : Element) : Element :=
  e.writeBack "style" e.style.write

/-! ## Attributes -/

/-- Replaces the value of the attribute of this name, or adds it at the end. -/
def put (e : Element) (a : Attribute) : Element :=
  let attributes :=
    match e.attributes.findIdx? (·.name == a.name) with
    | some i => e.attributes.modify i fun held => { held with value := a.value }
    | none => e.attributes ++ [a]
  { e with attributes }.refresh a.name

def setAttr (e : Element) (name value : String) : Element :=
  e.put ⟨QName.read name, value⟩

/-- An element with the given attributes; later values win. -/
def ofAttributes (name : QName) (attributes : List Attribute) : Element :=
  attributes.foldl put (bare name)

def removeAttr (e : Element) (name : String) : Element :=
  match e.attribute? name with
  | some a =>
    { e with attributes := e.attributes.eraseP (·.name.isNamed name) }.refresh a.name
  | none => e

def filterAttrs (p : Attribute → Bool) (e : Element) : Element :=
  { e with attributes := e.attributes.filter p }.refreshClasses.refreshStyle

/-- Rewrites the values for which `f` has a new one. -/
def mapAttrs (f : QName → String → Option String) (e : Element) : Element :=
  let attributes := e.attributes.map fun a =>
    match f a.name a.value with
    | some value => { a with value }
    | none => a
  { e with attributes }.refreshClasses.refreshStyle

/-- Sorts the attributes; equal ones keep their order. -/
def sortAttrs (le : Attribute → Attribute → Bool) (e : Element) : Element :=
  { e with attributes := e.attributes.mergeSort le }

/-! ## Classes and style -/

def addClass (e : Element) (token : String) : Element :=
  if e.classes.accepts token then { e with classes := e.classes.add token }.writeClasses
  else e

def removeClass (e : Element) (token : String) : Element :=
  if e.hasClass token then { e with classes := e.classes.erase token }.writeClasses else e

def replaceStyle (e : Element) (style : Style) : Element :=
  { e with style }.writeStyle

def setStyle (e : Element) (d : Declaration) : Element :=
  e.replaceStyle (e.style.set d)

def removeStyle (e : Element) (property : String) : Element :=
  if (e.style.find? property).isSome then e.replaceStyle (e.style.erase property) else e

end Element
end SvgCompact
