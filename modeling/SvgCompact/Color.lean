import SvgCompact.Decimal.Reader
import SvgCompact.Decimal.Binary
import SvgCompact.Text.Blank

/-!
Colors and their shortest spelling.

A color is three bytes.  It is read from six or three hexadecimal digits, from
`rgb(…)`, or from the two words that have a shorter spelling; it is written as
a word, as three digits or as six.  What is no such color is left as it stands.
-/

namespace SvgCompact

structure Color where
  red : UInt8
  green : UInt8
  blue : UInt8
deriving DecidableEq, Repr

namespace Color

/-! ## Reading -/

/-- The value of a hexadecimal digit in lower case. -/
def digitValue? (c : Char) : Option Nat :=
  if c.isDigit then some (c.toNat - 48)
  else if 'a' ≤ c ∧ c ≤ 'f' then some (c.toNat - 87)
  else none

/-- The byte of two digits. -/
def byteOf (high low : Nat) : UInt8 :=
  UInt8.ofNat (16 * high + low)

/-- Six digits are three bytes; of three digits each stands for two. -/
def ofDigits? : List Nat → Option Color
  | [r, g, b] => some ⟨byteOf r r, byteOf g g, byteOf b b⟩
  | [r₁, r₀, g₁, g₀, b₁, b₀] => some ⟨byteOf r₁ r₀, byteOf g₁ g₀, byteOf b₁ b₀⟩
  | _ => none

/-- The number held between zero and a limit. -/
def clamp (limit x : Float) : Float :=
  if x < 0.0 then 0.0 else if limit < x then limit else x

/-- The nearest byte to a number from 0 to 255.  What is not a number is 0. -/
def nearestByte (x : Float) : UInt8 :=
  match Decimal.Binary.ofFloat (Decimal.nearest x) with
  | .finite false mantissa exponent =>
    if 0 ≤ exponent then UInt8.ofNat (mantissa * Decimal.powerOfTwo exponent.toNat)
    else UInt8.ofNat (mantissa / Decimal.powerOfTwo (-exponent).toNat)
  | _ => 0

/-- A channel is a number up to 255 or a percentage. -/
def channel? (s : List Char) : Option UInt8 :=
  if s.getLast? == some '%' then
    (Decimal.read? s.dropLast).map fun x => nearestByte (clamp 100.0 x * 2.55)
  else (Decimal.read? s).map fun x => nearestByte (clamp 255.0 x)

/-- The channels between the brackets of `rgb(…)`, separated by commas and
blanks. -/
def ofChannels? (s : List Char) : Option Color :=
  let parts := (s.splitOnP fun c => c == ',' || Text.isBlank c).filter (!·.isEmpty)
  match parts.mapM channel? with
  | some [r, g, b] => some ⟨r, g, b⟩
  | _ => none

def readLower? (s : List Char) : Option Color :=
  match s with
  | '#' :: digits => (digits.mapM digitValue?).bind ofDigits?
  | _ =>
    if s == "white".toList then some ⟨255, 255, 255⟩
    else if s == "black".toList then some ⟨0, 0, 0⟩
    else
      match Text.after? "rgb(".toList s with
      | some rest => if rest.getLast? == some ')' then ofChannels? rest.dropLast else none
      | none => none

def read? (s : List Char) : Option Color :=
  readLower? (Text.lower s)

/-! ## Writing -/

/-- The words that are no longer than the digits they stand for. -/
def words : List (Color × String) :=
  [(⟨0xff, 0x00, 0x00⟩, "red"), (⟨0xd2, 0xb4, 0x8c⟩, "tan"), (⟨0xf0, 0xff, 0xff⟩, "azure"),
    (⟨0xf5, 0xf5, 0xdc⟩, "beige"), (⟨0xff, 0xe4, 0xc4⟩, "bisque"),
    (⟨0xa5, 0x2a, 0x2a⟩, "brown"), (⟨0xff, 0x7f, 0x50⟩, "coral"),
    (⟨0xff, 0xd7, 0x00⟩, "gold"), (⟨0x80, 0x80, 0x80⟩, "gray"),
    (⟨0x00, 0x80, 0x00⟩, "green"), (⟨0x4b, 0x00, 0x82⟩, "indigo"),
    (⟨0xff, 0xff, 0xf0⟩, "ivory"), (⟨0xf0, 0xe6, 0x8c⟩, "khaki"),
    (⟨0xfa, 0xf0, 0xe6⟩, "linen"), (⟨0x80, 0x00, 0x00⟩, "maroon"),
    (⟨0x00, 0x00, 0x80⟩, "navy"), (⟨0x80, 0x80, 0x00⟩, "olive"),
    (⟨0xff, 0xa5, 0x00⟩, "orange"), (⟨0xda, 0x70, 0xd6⟩, "orchid"),
    (⟨0xcd, 0x85, 0x3f⟩, "peru"), (⟨0xff, 0xc0, 0xcb⟩, "pink"), (⟨0xdd, 0xa0, 0xdd⟩, "plum"),
    (⟨0x80, 0x00, 0x80⟩, "purple"), (⟨0xfa, 0x80, 0x72⟩, "salmon"),
    (⟨0xa0, 0x52, 0x2d⟩, "sienna"), (⟨0xc0, 0xc0, 0xc0⟩, "silver"),
    (⟨0xff, 0xfa, 0xfa⟩, "snow"), (⟨0x00, 0x80, 0x80⟩, "teal"),
    (⟨0xff, 0x63, 0x47⟩, "tomato"), (⟨0xee, 0x82, 0xee⟩, "violet"),
    (⟨0xf5, 0xde, 0xb3⟩, "wheat")]

def digitChar (n : Nat) : Char :=
  if n < 10 then Char.ofNat (48 + n) else Char.ofNat (87 + n)

def high (b : UInt8) : Nat := b.toNat / 16

def low (b : UInt8) : Nat := b.toNat % 16

/-- Three digits if they say everything, else six. -/
def digits (c : Color) : List Nat :=
  let bytes := [c.red, c.green, c.blue]
  if bytes.all fun b => high b == low b then bytes.map low
  else bytes.flatMap fun b => [high b, low b]

/-- The shortest spelling; a word is taken where there is one. -/
def write (c : Color) : List Char :=
  match words.find? (·.1 == c) with
  | some (_, word) => word.toList
  | none => '#' :: c.digits.map digitChar

/-- The shortest spelling of what a text says.  A text that is no color, such as
`none` or a reference, is only trimmed. -/
def shorten (s : String) : String :=
  let trimmed := Text.trim s.toList
  match read? trimmed with
  | some c => String.ofList c.write
  | none => String.ofList trimmed

/-! ## Where colors stand -/

/-- The attributes and properties that hold a color. -/
def properties : List String :=
  ["color", "fill", "flood-color", "lighting-color", "stop-color", "stroke"]

def isProperty (name : String) : Bool :=
  properties.contains name

end Color
end SvgCompact
