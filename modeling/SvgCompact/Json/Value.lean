import SvgCompact.Text.Measure

/-!
JSON values.
-/

namespace SvgCompact

/-- A JSON value.  Integers that fit into 64 bits, signed or unsigned, are kept
apart from other numbers; objects list their keys in order, each once. -/
inductive Json
  | null
  | bool (b : Bool)
  | integer (n : Int)
  | decimal (x : Float)
  | text (s : String)
  | list (items : List Json)
  | object (fields : List (String × Json))
deriving Inhabited

namespace Json

/-- Puts a field into its place by the order of keys.  A field of the same key
is replaced. -/
def putField (key : String) (value : Json) :
    List (String × Json) → List (String × Json)
  | [] => [(key, value)]
  | (k, v) :: rest =>
    if k == key then (key, value) :: rest
    else if Text.precedes key k then (key, value) :: (k, v) :: rest
    else (k, v) :: putField key value rest

/-- The fields in order; of two fields with one key the later stays. -/
def ofFields (fields : List (String × Json)) : List (String × Json) :=
  fields.foldl (fun sorted (key, value) => putField key value sorted) []

end Json
end SvgCompact
