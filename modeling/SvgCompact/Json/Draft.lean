import SvgCompact.Json.Value
import SvgCompact.Decimal.Reader

/-!
JSON text as far as it can be read.

A draft keeps what is well formed up to the first fault and marks the place of
the fault, so that whoever decodes it in order meets either the fault or a value
of the wrong kind first.
-/

namespace SvgCompact
namespace Json

/-- Why text is no JSON: something else stands there, or nothing does. -/
inductive Fault
  | malformed
  | ended
deriving DecidableEq, Repr

/-- What the beginning of a value says that it is.  No value begins with a
character that is `stray`, or where the text has ended. -/
inductive Beginning
  | stray
  | null
  | bool
  | number
  | text
deriving DecidableEq, Repr

mutual

/-- A value that may break off.  Fields are in the order of the text. -/
inductive Draft
  | broken (beginning : Beginning) (fault : Fault)
  | null
  | bool (b : Bool)
  | integer (n : Int)
  | decimal (x : Float)
  | text (s : String)
  | list (items : List Draft) (ending : Ending)
  | object (fields : List (String × Draft)) (ending : Ending)

/-- How a list or an object ends: it is closed, it breaks off behind a member, or
it breaks off where a member or a key is due and something else is found. -/
inductive Ending
  | closed
  | unclosed (fault : Fault)
  | unfilled (found : Draft)

end

/-- What was read, and the text after it unless a fault was met. -/
abbrev Progress := Draft × Option (List Char)

/-- What is found where nothing is left. -/
def Draft.missing : Draft := .broken .stray .ended

/-- What is found where no value can begin. -/
def Draft.stray : Draft := .broken .stray .malformed

/-- The fault of a list or an object that is not closed.  Where a member is due,
only a string that breaks off has a fault of its own. -/
def Ending.fault? : Ending → Option Fault
  | closed => none
  | unclosed fault => some fault
  | unfilled (.broken .stray fault) => some fault
  | unfilled (.broken .text fault) => some fault
  | unfilled _ => some .malformed

namespace Draft

def isBlank (c : Char) : Bool :=
  c == ' ' || c == '\n' || c == '\t' || c == '\r'

def skip (s : List Char) : List Char :=
  s.dropWhile isBlank

def fail (beginning : Beginning) (fault : Fault) : Progress :=
  (.broken beginning fault, none)

/-! ## Words and numbers -/

/-- Reads the rest of a word. -/
def word (beginning : Beginning) (draft : Draft) : List Char → List Char → Progress
  | [], s => (draft, some s)
  | _ :: _, [] => fail beginning .ended
  | w :: ws, c :: cs =>
    if w == c then word beginning draft ws cs else fail beginning .malformed

/-- Adds digits to a number while it fits into a machine word, and counts the
digits added. -/
def gather (n : Nat) : List Char → Nat × Nat
  | [] => (n, 0)
  | c :: cs =>
    let next := 10 * n + (c.toNat - '0'.toNat)
    if next < 0x10000000000000000 then
      let (result, count) := gather next cs
      (result, count + 1)
    else (n, 0)

/-- The quotient of `x` and `10 ^ exponent`.  A power that is too large for a
double is divided by in steps. -/
def divided (x : Float) (exponent : Nat) : Float :=
  if exponent ≤ 308 then x / Decimal.scientific 1 exponent
  else if x == 0.0 then x
  else divided (x / Decimal.scientific 1 308) (exponent - 308)
termination_by exponent
decreasing_by omega

/-- The product of `x` and `10 ^ exponent`, unless it is too large. -/
def multiplied? (x : Float) (exponent : Nat) : Option Float :=
  if exponent ≤ 308 then
    let product := x * Decimal.scientific 1 exponent
    if product == 1.0 / 0.0 then none else some product
  else if x == 0.0 then some x
  else none

/-- The double for a decimal number: its leading digits, as many as fit into a
machine word, times or divided by the power of ten that is due to them. -/
def double? (ahead behind : List Char) (exponent : Int) : Option Float :=
  let (leading, count) := gather 0 ahead
  let (leading, countBehind) := gather leading behind
  let power : Int := exponent + (ahead.length - count : Nat) - countBehind
  let x := Decimal.scientific leading 0
  if power < 0 then some (divided x power.natAbs) else multiplied? x power.natAbs

/-- The value of a number: an integer when it is written as one and fits. -/
def ofNumber (negative : Bool) (ahead behind : List Char) (exponent : Option Int) : Draft :=
  let decimal :=
    match double? ahead behind (exponent.getD 0) with
    | none => broken .number .malformed
    | some x => Draft.decimal (if negative then -x else x)
  if behind.isEmpty && exponent.isNone then
    let n := Decimal.ofDigits ahead
    if negative then
      if 0 < n ∧ n ≤ 0x8000000000000000 then integer (-n) else decimal
    else if n < 0x10000000000000000 then integer n else decimal
  else decimal

def finishNumber (draft : Draft) (rest : List Char) : Progress :=
  match draft with
  | broken beginning fault => fail beginning fault
  | draft => (draft, some rest)

def exponent (negative : Bool) (ahead behind s : List Char) : Progress :=
  match s with
  | c :: cs =>
    if c == 'e' || c == 'E' then
      let (down, digits) := Decimal.takeSign cs
      let power : Int := Decimal.ofDigits (digits.takeWhile Char.isDigit)
      match digits with
      | [] => fail .number .ended
      | d :: _ =>
        if d.isDigit then
          finishNumber (ofNumber negative ahead behind (some (if down then -power else power)))
            (digits.dropWhile Char.isDigit)
        else fail .number .malformed
    else finishNumber (ofNumber negative ahead behind none) s
  | [] => finishNumber (ofNumber negative ahead behind none) s

def fraction (negative : Bool) (ahead s : List Char) : Progress :=
  match s with
  | '.' :: [] => fail .number .ended
  | '.' :: c :: cs =>
    if c.isDigit then
      exponent negative ahead ((c :: cs).takeWhile Char.isDigit)
        ((c :: cs).dropWhile Char.isDigit)
    else fail .number .malformed
  | _ => exponent negative ahead [] s

/-- A number after its sign.  Zero has no digit after it. -/
def number (negative : Bool) (s : List Char) : Progress :=
  match s with
  | [] => fail .number .ended
  | '0' :: c :: cs => if c.isDigit then fail .number .malformed else fraction negative ['0'] (c :: cs)
  | c :: _ =>
    if c.isDigit then
      fraction negative (s.takeWhile Char.isDigit) (s.dropWhile Char.isDigit)
    else fail .number .malformed

/-! ## Strings -/

def hexDigit? (c : Char) : Option Nat :=
  if c.isDigit then some (c.toNat - 48)
  else if 'a' ≤ c.toLower ∧ c.toLower ≤ 'f' then some (c.toLower.toNat - 87)
  else none

/-- The number that four hexadecimal digits spell.  Four bytes of text are enough
to see that they are no such digits. -/
def hex4 (s : List Char) : Except Fault Nat :=
  if Text.byteSize (s.take 4) < 4 then .error .ended
  else
    match s with
    | a :: b :: c :: d :: _ =>
      match hexDigit? a, hexDigit? b, hexDigit? c, hexDigit? d with
      | some a, some b, some c, some d => .ok (((a * 16 + b) * 16 + c) * 16 + d)
      | _, _, _, _ => .error .malformed
    | _ => .error .malformed

/-- The character of a `\u` escape and how many characters it takes after the
`u`: a pair of surrogates takes two escapes. -/
def unicodeEscape (s : List Char) : Except Fault (Char × Nat) := do
  let n ← hex4 s
  if 0xdc00 ≤ n ∧ n ≤ 0xdfff then .error .malformed
  else if 0xd800 ≤ n ∧ n ≤ 0xdbff then
    match s.drop 4 with
    | [] => .error .ended
    | '\\' :: [] => .error .ended
    | '\\' :: 'u' :: more => do
      let m ← hex4 more
      if 0xdc00 ≤ m ∧ m ≤ 0xdfff then
        .ok (Char.ofNat (0x10000 + (n - 0xd800) * 0x400 + (m - 0xdc00)), 10)
      else .error .malformed
    | _ => .error .malformed
  else .ok (Char.ofNat n, 4)

def simpleEscape? : Char → Option Char
  | '"' => some '"'
  | '\\' => some '\\'
  | '/' => some '/'
  | 'b' => some '\x08'
  | 'f' => some '\x0c'
  | 'n' => some '\n'
  | 'r' => some '\r'
  | 't' => some '\t'
  | _ => none

/-- The characters up to the closing quote, and the text after it. -/
def quoted : List Char → Except Fault (List Char × List Char)
  | [] => .error .ended
  | c :: cs =>
    if c == '"' then .ok ([], cs)
    else if c == '\\' then
      match cs with
      | [] => .error .ended
      | 'u' :: more =>
        match unicodeEscape more with
        | .ok (e, n) => (quoted (more.drop n)).map fun (s, rest) => (e :: s, rest)
        | .error fault => .error fault
      | e :: more =>
        match simpleEscape? e with
        | some e => (quoted more).map fun (s, rest) => (e :: s, rest)
        | none => .error .malformed
    else if c.toNat < 0x20 then .error .malformed
    else (quoted cs).map fun (s, rest) => (c :: s, rest)
termination_by s => s.length
decreasing_by all_goals simp_all [List.length_drop]; try omega

/-! ## Lists and objects -/

theorem length_skip_le (s : List Char) : (skip s).length ≤ s.length :=
  (List.dropWhile_sublist _).length_le

def items (read : List Char → Progress) (s : List Char) :
    List Draft × Ending × Option (List Char) :=
  match read s with
  | (item, none) => ([item], .closed, none)
  | (item, some rest) =>
    match _h : skip (s.drop (s.length - rest.length)) with
    | [] => ([item], .unclosed .ended, none)
    | ',' :: more =>
      match skip more with
      | [] => ([item], .unfilled missing, none)
      | ']' :: _ => ([item], .unfilled stray, none)
      | _ =>
        let (others, ending, rest) := items read more
        (item :: others, ending, rest)
    | ']' :: more => ([item], .closed, some more)
    | _ => ([item], .unclosed .malformed, none)
termination_by s.length
decreasing_by
  have := length_skip_le (s.drop (s.length - rest.length))
  rw [_h] at this
  simp only [List.length_cons, List.length_drop] at this
  omega

/-- A value after the colon of its key. -/
def afterColon (read : List Char → Progress) (s : List Char) : Progress :=
  match skip s with
  | [] => (missing, none)
  | ':' :: rest => read rest
  | _ => (stray, none)

def fields (read : List Char → Progress) (s : List Char) :
    List (String × Draft) × Ending × Option (List Char) :=
  match skip s with
  | '"' :: keyed =>
    match quoted keyed with
    | .error fault => ([], .unfilled (broken .text fault), none)
    | .ok (key, rest) =>
      let key := String.ofList key
      match afterColon read rest with
      | (value, none) => ([(key, value)], .closed, none)
      | (value, some rest) =>
        match _h : skip (s.drop (s.length - rest.length)) with
        | [] => ([(key, value)], .unclosed .ended, none)
        | ',' :: more =>
          let (others, ending, rest) := fields read more
          ((key, value) :: others, ending, rest)
        | '\x7d' :: more => ([(key, value)], .closed, some more)
        | _ => ([(key, value)], .unclosed .malformed, none)
  | _ => ([], .unfilled (read s).1, none)
termination_by s.length
decreasing_by
  have := length_skip_le (s.drop (s.length - rest.length))
  rw [_h] at this
  simp only [List.length_cons, List.length_drop] at this
  omega

/-- A value, with at most `depth` lists and objects inside one another. -/
def value (depth : Nat) (s : List Char) : Progress :=
  match skip s with
  | [] => (missing, none)
  | 'n' :: cs => word .null .null "ull".toList cs
  | 't' :: cs => word .bool (.bool true) "rue".toList cs
  | 'f' :: cs => word .bool (.bool false) "alse".toList cs
  | '-' :: cs => number true cs
  | '"' :: cs =>
    match quoted cs with
    | .ok (s, rest) => (.text (String.ofList s), some rest)
    | .error fault => fail .text fault
  | '[' :: cs =>
    match depth with
    | 0 => (.list [] (.unclosed .malformed), none)
    | depth + 1 =>
      match skip cs with
      | [] => (.list [] (.unfilled missing), none)
      | ']' :: rest => (.list [] .closed, some rest)
      | _ =>
        let (items, ending, rest) := items (value depth) cs
        (.list items ending, rest)
  | '\x7b' :: cs =>
    match depth with
    | 0 => (.object [] (.unclosed .malformed), none)
    | depth + 1 =>
      match skip cs with
      | [] => (.object [] (.unfilled missing), none)
      | '\x7d' :: rest => (.object [] .closed, some rest)
      | _ =>
        let (fields, ending, rest) := fields (value depth) cs
        (.object fields ending, rest)
  | c :: cs => if c.isDigit then number false (c :: cs) else (stray, none)

/-- The nesting that text may have. -/
def maxDepth : Nat := 127

/-- What a text holds and, when it could be read, whether more follows. -/
def read (s : String) : Draft × Option Fault :=
  match value maxDepth s.toList with
  | (draft, some rest) => (draft, if (skip rest).isEmpty then none else some .malformed)
  | (draft, none) => (draft, none)

mutual

/-- The value of a draft, or the first fault in it. -/
def complete : Draft → Except Fault Json
  | broken _ fault => .error fault
  | null => .ok .null
  | bool b => .ok (.bool b)
  | integer n => .ok (.integer n)
  | decimal x => .ok (.decimal x)
  | text s => .ok (.text s)
  | list items ending =>
    match completeItems items, ending.fault? with
    | .ok items, none => .ok (.list items)
    | .ok _, some fault => .error fault
    | .error fault, _ => .error fault
  | object fields ending =>
    match completeFields fields, ending.fault? with
    | .ok fields, none => .ok (.object (ofFields fields))
    | .ok _, some fault => .error fault
    | .error fault, _ => .error fault

def completeItems : List Draft → Except Fault (List Json)
  | [] => .ok []
  | d :: ds =>
    match complete d with
    | .ok v => (completeItems ds).map (v :: ·)
    | .error fault => .error fault

def completeFields : List (String × Draft) → Except Fault (List (String × Json))
  | [] => .ok []
  | (key, d) :: ds =>
    match complete d with
    | .ok v => (completeFields ds).map ((key, v) :: ·)
    | .error fault => .error fault

end

end Draft

def read (s : String) : Except Fault Json :=
  match Draft.read s with
  | (draft, ending) =>
    match draft.complete, ending with
    | .ok v, none => .ok v
    | .ok _, some fault => .error fault
    | .error fault, _ => .error fault

end Json
end SvgCompact
