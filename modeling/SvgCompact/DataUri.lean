import SvgCompact.Text.Base64
import SvgCompact.Text.Blank
import SvgCompact.Text.Percent
import SvgCompact.Text.Search
import SvgCompact.Text.Utf8

/-!
Markup as the payload of a `data:` URI.
-/

namespace SvgCompact
namespace DataUri

inductive Mode
  | base64
  | percent
  | plain
deriving DecidableEq, Repr

/-- The names of the modes in the order in which messages list them. -/
def Mode.names : List (String × Mode) :=
  [("base64", base64), ("enc", percent), ("unenc", plain)]

def Mode.name : Mode → String
  | base64 => "base64"
  | percent => "enc"
  | plain => "unenc"

def Mode.ofName? (s : String) : Option Mode :=
  (names.find? (·.1 == s)).map (·.2)

def Mode.unknownMessage (s : String) : String :=
  "unknown data URI mode `" ++ s ++ "` (expected base64, enc or unenc)"

inductive Error
  | base64 (e : Base64.Error)
  | utf8 (e : Utf8.Error)
deriving DecidableEq, Repr

def Error.message : Error → String
  | base64 e => "invalid base64 payload: " ++ e.message
  | utf8 e => "payload is not UTF-8: " ++ e.message

def scheme : String := "data:image/svg+xml"

def ofAscii (bs : List UInt8) : List Char :=
  bs.map fun b => Char.ofNat b.toNat

def encode (mode : Mode) (s : String) : String :=
  let bytes := Utf8.encode s.toList
  scheme ++
    match mode with
    | .base64 => ";base64," ++ String.ofList (ofAscii (Base64.encode bytes))
    | .percent => "," ++ String.ofList (ofAscii (Percent.encode bytes))
    | .plain => "," ++ s

/-- Reads the parameters before the comma: whether the payload is in base64, or
nothing if they say something else.  A character set comes before that. -/
def readParameters (base64 : Bool) : List (List Char) → Option Bool
  | [] => some base64
  | part :: rest =>
    if part == "base64".toList then readParameters true rest
    else if "charset=".toList.isPrefixOf part && !base64 then readParameters base64 rest
    else none

def readUtf8 (bs : List UInt8) : Except Error String :=
  ((Utf8.decode bs).map String.ofList).mapError .utf8

def decodePayload (base64 : Bool) (data : List Char) : Except Error String :=
  if base64 then
    match Base64.decode (Utf8.encode (Text.trim data)) with
    | .ok bytes => readUtf8 bytes
    | .error e => .error (.base64 e)
  else if data.head? == some '%' then readUtf8 (Percent.decode (Utf8.encode data))
  else .ok (String.ofList data)

/-- The payload of a text that is such a URI, and every other text as it
stands. -/
def decode (s : String) : Except Error String :=
  let parts := (Text.after? scheme.toList (Text.trim s.toList)).bind (Text.splitAt? (· == ','))
  match parts with
  | none => .ok s
  | some (parameters, data) =>
    match readParameters false ((parameters.splitOnP (· == ';')).filter (!·.isEmpty)) with
    | none => .ok s
    | some base64 => decodePayload base64 data

end DataUri
end SvgCompact
