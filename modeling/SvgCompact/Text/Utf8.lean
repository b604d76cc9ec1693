/-!
Text as bytes of UTF-8.
-/

namespace SvgCompact
namespace Utf8

def encode (s : List Char) : List UInt8 :=
  s.flatMap String.utf8EncodeChar

/-- Why bytes are no text: a character breaks off after some of its bytes, or a
byte comes that cannot continue it. -/
inductive Fault
  | incomplete
  | invalid (length : Nat)
deriving DecidableEq, Repr

structure Error where
  fault : Fault
  /-- The place of the first byte of the character. -/
  index : Nat
deriving DecidableEq, Repr

def Error.message (e : Error) : String :=
  match e.fault with
  | .incomplete => s!"incomplete utf-8 byte sequence from index {e.index}"
  | .invalid length => s!"invalid utf-8 sequence of {length} bytes from index {e.index}"

/-- The least and the greatest byte after each first byte, and how many bytes
come after that one.  Longer forms than needed, surrogates and what lies beyond
the last code point are shut out by the second byte. -/
def shape? (first : UInt8) : Option (UInt8 × UInt8 × Nat) :=
  if 0xc2 ≤ first ∧ first ≤ 0xdf then some (0x80, 0xbf, 0)
  else if first = 0xe0 then some (0xa0, 0xbf, 1)
  else if first = 0xed then some (0x80, 0x9f, 1)
  else if 0xe1 ≤ first ∧ first ≤ 0xef then some (0x80, 0xbf, 1)
  else if first = 0xf0 then some (0x90, 0xbf, 2)
  else if first = 0xf4 then some (0x80, 0x8f, 2)
  else if 0xf1 ≤ first ∧ first ≤ 0xf3 then some (0x80, 0xbf, 2)
  else none

/-- What the first byte of a character adds to its code, if `more` bytes come
behind the second. -/
def leading (first : UInt8) (more : Nat) : Nat :=
  match more with
  | 0 => first.toNat % 32
  | 1 => first.toNat % 16
  | _ => first.toNat % 8

/-- The code of a character from `code`, the bits read so far, and `more` bytes
that each add six.  `taken` bytes are read. -/
def continued (code taken : Nat) : Nat → List UInt8 → Except Fault Nat
  | 0, _ => .ok code
  | _ + 1, [] => .error .incomplete
  | more + 1, b :: bs =>
    if 0x80 ≤ b ∧ b ≤ 0xbf then continued (64 * code + b.toNat % 64) (taken + 1) more bs
    else .error (.invalid taken)

/-- The first character of bytes, and how many bytes follow its first. -/
def firstChar (first : UInt8) (rest : List UInt8) : Except Fault (Char × Nat) :=
  if first < 0x80 then .ok (Char.ofNat first.toNat, 0)
  else
    match shape? first, rest with
    | none, _ => .error (.invalid 1)
    | some _, [] => .error .incomplete
    | some (least, greatest, more), second :: rest =>
      if least ≤ second ∧ second ≤ greatest then
        (continued (64 * leading first more + second.toNat % 64) 2 more rest).map fun code =>
          (Char.ofNat code, more + 1)
      else .error (.invalid 1)

/-- The text from the byte at `index` on. -/
def decodeFrom (index : Nat) : List UInt8 → Except Error (List Char)
  | [] => .ok []
  | b :: bs =>
    match firstChar b bs with
    | .ok (c, more) => (decodeFrom (index + more + 1) (bs.drop more)).map (c :: ·)
    | .error fault => .error ⟨fault, index⟩
termination_by bs => bs.length
decreasing_by simp only [List.length_cons, List.length_drop]; omega

def decode (bs : List UInt8) : Except Error (List Char) :=
  decodeFrom 0 bs

end Utf8
end SvgCompact
