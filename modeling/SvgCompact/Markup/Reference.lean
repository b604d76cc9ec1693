import SvgCompact.Markup.Error
import SvgCompact.Text.Search

/-!
References in text and attribute values.

`resolve` replaces the five named references and the numeric ones.  Everything
else stays as it is written.
-/

namespace SvgCompact
namespace Markup

def namedReference? (name : String) : Option Char :=
  match name with
  | "lt" => some '<'
  | "gt" => some '>'
  | "amp" => some '&'
  | "apos" => some '\''
  | "quot" => some '"'
  | _ => none

def digitValue? (c : Char) : Option Nat :=
  if c.isDigit then some (c.toNat - 48)
  else if 'a' ≤ c.toLower ∧ c.toLower ≤ 'z' then some (c.toLower.toNat - 87)
  else none

/-- Adds digits to a number of 32 bits; the first digit that does not fit or is
none decides the fault. -/
def addDigits (radix : Nat) : Nat → List Char → Except ReferenceFault Nat
  | n, [] => .ok n
  | n, c :: cs =>
    match digitValue? c with
    | some digit =>
      if radix ≤ digit then .error .badDigit
      else if 0x100000000 ≤ n * radix + digit then .error .tooLarge
      else addDigits radix (n * radix + digit) cs
    | none => .error .badDigit

def codePoint (radix : Nat) (digits : List Char) : Except ReferenceFault Nat :=
  match digits with
  | [] => .error .noDigits
  | c :: _ => if c == '+' || c == '-' then .error .signed else addDigits radix 0 digits

/-- The character of a numeric reference, from what follows its `#`. -/
def numericReference (s : List Char) : Except ReferenceFault Char := do
  let code ←
    match s with
    | 'x' :: digits => codePoint 16 digits
    | digits => codePoint 10 digits
  if code = 0 then .error .null
  else if code.isValidChar then .ok (Char.ofNat code)
  else .error (.noCharacter code)

/-- The character of the reference between `&` and `;`.  The offset is that of
the name. -/
def reference (offset : Nat) (name : List Char) : Except ReferenceFault Char :=
  match name with
  | '#' :: number => numericReference number
  | _ =>
    match namedReference? (String.ofList name) with
    | some c => .ok c
    | none => .error (.unknown offset (offset + Text.byteSize name) (String.ofList name))

/-- The length of a reference name: what stands before the next `;`, if no `&`
comes first. -/
def nameLength? : List Char → Option Nat
  | [] => none
  | c :: cs =>
    if c == ';' then some 0 else if c == '&' then none else (nameLength? cs).map (· + 1)

/-- Resolves the references of a text of which `offset` bytes are read; `size`
is the number of bytes of the whole text. -/
def resolveFrom (size offset : Nat) : List Char → Except ReferenceFault (List Char)
  | [] => .ok []
  | c :: cs =>
    if c == '&' then
      match nameLength? cs with
      | none => .error (.unterminated offset size)
      | some n => do
        let name := cs.take n
        let resolved ← reference (offset + 1) name
        let rest ← resolveFrom size (offset + Text.byteSize name + 2) (cs.drop (n + 1))
        .ok (resolved :: rest)
    else do
      let rest ← resolveFrom size (offset + c.utf8Size) cs
      .ok (c :: rest)
termination_by cs => cs.length

def resolve (s : List Char) : Except ReferenceFault (List Char) :=
  resolveFrom (Text.byteSize s) 0 s

end Markup
end SvgCompact
