/-!
Lengths of text in the units that messages count in.
-/

namespace SvgCompact
namespace Text

/-- Length in bytes of UTF-8. -/
def byteSize : List Char → Nat
  | [] => 0
  | c :: cs => c.utf8Size + byteSize cs

/-- Length in code units of UTF-16. -/
def units16 : List Char → Nat
  | [] => 0
  | c :: cs => (if c.toNat < 0x10000 then 1 else 2) + units16 cs

/-- Order of texts by their bytes in UTF-8, which is the order by code points. -/
def precedes (s t : String) : Bool :=
  compare s t != .gt

end Text
end SvgCompact
