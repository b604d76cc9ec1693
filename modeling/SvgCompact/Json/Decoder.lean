import SvgCompact.Json.Draft
import SvgCompact.Decimal.Shortest
import SvgCompact.Text.Quoted

/-!
Decoding JSON into typed values.

A decoder looks at a draft, so the same one serves text, where the first fault
or misfit counts, and complete values, which are drafts without faults.  Records
are decoded from objects and from lists of their fields in order; fields that
are missing keep their defaults.
-/

namespace SvgCompact
namespace Json

/-- What a value is, as messages show it. -/
inductive Kind
  | null
  | bool (b : Bool)
  | integer (n : Int)
  | decimal (x : Float)
  | text (s : String)
  | list
  | object

/-- Decimals in messages show the sign of every exponent. -/
def Kind.decimalText (x : Float) : String :=
  let layout := { Decimal.Layout.double with plus := true }
  String.ofList (layout.write Decimal.Width.double (Decimal.Binary.ofFloat x))

def Kind.describe : Kind → String
  | null => "null"
  | bool b => "boolean `" ++ (if b then "true" else "false") ++ "`"
  | integer n => "integer `" ++ toString n ++ "`"
  | decimal x => "floating point `" ++ decimalText x ++ "`"
  | text s => "string " ++ Text.quoted s
  | list => "sequence"
  | object => "map"

/-- Why a draft is not what is wanted. -/
inductive Misfit
  | fault (fault : Fault)
  | wrongKind (found : Kind) (wanted : String)
  | outOfRange (n : Int) (wanted : String)
  | unknownField (name : String) (known : List String)
  | repeatedField (name : String)
  | unknownVariant (name : String) (known : List String)
  /-- A value that cannot name a variant. -/
  | noVariant (found : Kind)
  /-- An object that names a variant has one key.  The first of several may be
    in order or not. -/
  | severalKeys (firstFits : Bool)
  /-- A list of fields that goes on after the last of them. -/
  | surplusItems (count : Nat)
  /-- None of the forms of a type fits. -/
  | noForm (type : String)

/-- What kind of trouble a text makes: it is malformed, it ends too early, or
its values do not fit. -/
inductive Category
  | malformed
  | ended
  | unfit
deriving DecidableEq, Repr

namespace Misfit

def choice : List String → String
  | [] => "there are no choices"
  | [a] => "`" ++ a ++ "`"
  | [a, b] => "`" ++ a ++ "` or `" ++ b ++ "`"
  | names => "one of " ++ ", ".intercalate (names.map fun a => "`" ++ a ++ "`")

def message : Misfit → String
  | fault .malformed => "malformed value"
  | fault .ended => "value breaks off"
  | wrongKind found wanted => "invalid type: " ++ found.describe ++ ", expected " ++ wanted
  | outOfRange n wanted => "invalid value: integer `" ++ toString n ++ "`, expected " ++ wanted
  | unknownField name [] => "unknown field `" ++ name ++ "`, there are no fields"
  | unknownField name known => "unknown field `" ++ name ++ "`, expected " ++ choice known
  | repeatedField name => "duplicate field `" ++ name ++ "`"
  | unknownVariant name known => "unknown variant `" ++ name ++ "`, expected " ++ choice known
  | noVariant found => "invalid type: " ++ found.describe ++ ", expected string or map"
  | severalKeys _ => "invalid value: map, expected map with a single key"
  | surplusItems count =>
    "invalid length " ++ toString count ++ ", expected fewer elements in array"
  | noForm type => "data did not match any variant of untagged enum " ++ type

/-- How a text with this misfit is classified.  Where the grammar leaves no
choice of values, a wrong one counts as malformed. -/
def category : Misfit → Category
  | fault .malformed => .malformed
  | fault .ended => .ended
  | noVariant _ => .malformed
  | severalKeys firstFits => if firstFits then .malformed else .unfit
  | surplusItems _ => .malformed
  | _ => .unfit

end Misfit

abbrev Decoder (α : Type) := Draft → Except Misfit α

namespace Draft

/-- The kind of a draft, or the fault in place of a value. -/
def kind : Draft → Except Fault Kind
  | broken _ fault => .error fault
  | null => .ok .null
  | bool b => .ok (.bool b)
  | integer n => .ok (.integer n)
  | decimal x => .ok (.decimal x)
  | text s => .ok (.text s)
  | list _ _ => .ok .list
  | object _ _ => .ok .object

mutual

def ofJson : Json → Draft
  | .null => null
  | .bool b => bool b
  | .integer n => integer n
  | .decimal x => decimal x
  | .text s => text s
  | .list items => list (ofItems items) .closed
  | .object fields => object (ofMembers fields) .closed

def ofItems : List Json → List Draft
  | [] => []
  | v :: rest => ofJson v :: ofItems rest

def ofMembers : List (String × Json) → List (String × Draft)
  | [] => []
  | (key, v) :: rest => (key, ofJson v) :: ofMembers rest

end

end Draft

namespace Decoder

variable {α β : Type}

def refuse (wanted : String) (d : Draft) : Except Misfit α :=
  match d.kind with
  | .ok found => .error (.wrongKind found wanted)
  | .error fault => .error (.fault fault)

/-- Passes a result on unless a fault is met after it. -/
def unlessFault (fault? : Option Fault) (result : α) : Except Misfit α :=
  match fault? with
  | none => .ok result
  | some fault => .error (.fault fault)

/-! ## Single values -/

def bool : Decoder Bool
  | .bool b => .ok b
  | d => refuse "a boolean" d

def text : Decoder String
  | .text s => .ok s
  | d => refuse "a string" d

/-- A natural number below a limit.  The name of the type is for messages. -/
def natural (limit : Nat) (type : String) : Decoder Nat
  | .integer n => if 0 ≤ n ∧ n < limit then .ok n.toNat else .error (.outOfRange n type)
  | d => refuse type d

/-- A number that fits into a byte. -/
def byte : Decoder Nat := natural 0x100 "u8"

/-- A number that fits into a machine word. -/
def word : Decoder Nat := natural 0x10000000000000000 "usize"

def optional (decode : Decoder α) : Decoder (Option α)
  | .null => .ok none
  | d => (decode d).map some

def list (decode : Decoder α) : Decoder (List α)
  | .list items ending =>
    match items.mapM decode with
    | .ok results => unlessFault ending.fault? results
    | .error e => .error e
  | d => refuse "a sequence" d

/-! ## Variants without content -/

def variantOf (variants : List (String × α)) (name : String) : Except Misfit α :=
  match variants.find? (·.1 == name) with
  | some (_, result) => .ok result
  | none => .error (.unknownVariant name (variants.map (·.1)))

/-- What is wrong with a value where the name of a variant is due as a key. -/
def misplacedKey (d : Draft) : Misfit :=
  match d.kind with
  | .ok found => .wrongKind found "variant identifier"
  | .error fault => .fault fault

/-- The ending of an object that names a variant, behind its one field.  A comma
there is a fault whatever follows. -/
def afterVariant (result : α) : Ending → Except Misfit α
  | .unfilled _ => .error (.fault .malformed)
  | ending => unlessFault ending.fault? result

/-- The name of a variant, alone or as the key of nothing.  No other value is
looked at beyond its beginning. -/
def variant (variants : List (String × α)) : Decoder α
  | .text name => variantOf variants name
  | .object [] (.unfilled found) => .error (misplacedKey found)
  | .object [] ending =>
    match ending.fault? with
    | none => .error (.severalKeys true)
    | some fault => .error (.fault fault)
  | .object [(name, content)] ending =>
    match variantOf variants name, content with
    | .ok result, .null => afterVariant result ending
    | .ok _, d => refuse "unit" d
    | .error e, _ => .error e
  | .object ((name, content) :: _ :: _) _ =>
    .error (.severalKeys ((variantOf variants name).toBool && content matches .null))
  | .broken .null fault => .error (.fault fault)
  | .broken .text fault => .error (.fault fault)
  | .broken .stray fault => .error (.fault fault)
  | .broken _ _ => .error (.fault .malformed)
  | d =>
    match d.kind with
    | .ok found => .error (.noVariant found)
    | .error fault => .error (.fault fault)

/-! ## Records -/

/-- A field of a record: its name, and how a draft is put into the record. -/
structure Field (α : Type) where
  name : String
  fill : Draft → α → Except Misfit α

def Field.of (name : String) (decode : Decoder β) (set : β → α → α) : Field α :=
  ⟨name, fun d record => (decode d).map fun value => set value record⟩

/-- Fills fields by their keys, each once. -/
def fillByKey (fields : List (Field α)) (seen : List String) (record : α) :
    List (String × Draft) → Except Misfit α
  | [] => .ok record
  | (key, d) :: rest =>
    match fields.find? (·.name == key) with
    | none => .error (.unknownField key (fields.map (·.name)))
    | some f =>
      if seen.contains key then .error (.repeatedField key)
      else
        match f.fill d record with
        | .ok record => fillByKey fields (key :: seen) record rest
        | .error e => .error e

def fillInOrder (count : Nat) : List (Field α) → α → List Draft → Except Misfit α
  | _, record, [] => .ok record
  | [], _, _ :: _ => .error (.surplusItems count)
  | f :: fields, record, d :: rest =>
    match f.fill d record with
    | .ok record => fillInOrder count fields record rest
    | .error e => .error e

/-- The ending of a list of fields.  Behind the last of them a comma is a fault
whatever follows. -/
def afterFields (isFull : Bool) (result : α) : Ending → Except Misfit α
  | .unfilled d =>
    if isFull then .error (.fault .malformed)
    else unlessFault (Ending.unfilled d).fault? result
  | ending => unlessFault ending.fault? result

/-- A record whose fields are all optional. -/
def record (type : String) (fields : List (Field α)) (start : α) : Decoder α
  | .object members ending =>
    match fillByKey fields [] start members with
    | .ok result => unlessFault ending.fault? result
    | .error e => .error e
  | .list items ending =>
    match fillInOrder items.length fields start items with
    | .ok result => afterFields (items.length == fields.length) result ending
    | .error e => .error e
  | d => refuse ("struct " ++ type) d

end Decoder

def decode {α : Type} (decoder : Decoder α) (v : Json) : Except Misfit α :=
  decoder (Draft.ofJson v)

def decodeText {α : Type} (decoder : Decoder α) (s : String) : Except Misfit α :=
  match Draft.read s with
  | (draft, ending) =>
    match decoder draft with
    | .ok result => Decoder.unlessFault ending result
    | .error e => .error e

end Json
end SvgCompact
