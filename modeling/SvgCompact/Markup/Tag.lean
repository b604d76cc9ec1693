import SvgCompact.Markup.Reference
import SvgCompact.Text.Blank

/-!
The content of a tag: a name and attributes.
-/

namespace SvgCompact
namespace Markup

/-- An attribute as it is written: its key, where the key stands in the content
of the tag, and its value with references. -/
structure RawAttribute where
  key : List Char
  position : Nat
  value : List Char

/-- The name of a tag ends at the first blank.  It can be empty. -/
def tagName (content : List Char) : List Char :=
  content.takeWhile (!Text.isMarkupBlank ·)

def skipBlanks (s : List Char) : List Char :=
  s.dropWhile Text.isMarkupBlank

/-- The length of a key: its first character belongs to it, whatever it is, and
the next blank or `=` ends it. -/
def keyLength : List Char → Nat
  | [] => 0
  | _ :: cs => (cs.takeWhile fun c => !(c == '=' || Text.isMarkupBlank c)).length + 1

/-- What is found after the blanks in front of an attribute. -/
inductive AttributeStep
  | done
  | fault (position : Nat) (fault : AttributeFault)
  | found (a : RawAttribute) (rest : List Char)

/-- The value after the `=` of a key. -/
def valueStep (size : Nat) (key : List Char) (position : Nat) (cs : List Char) :
    AttributeStep :=
  match skipBlanks cs with
  | [] => .fault size .missingValue
  | quote :: rest =>
    if quote == '"' || quote == '\'' then
      match Text.splitAt? (· == quote) rest with
      | some (value, rest) => .found ⟨key, position, value⟩ rest
      | none => .fault size (.missingQuote quote)
    else .fault (size - Text.byteSize (quote :: rest)) .unquoted

/-- The next attribute of a tag whose content has `size` bytes.  A key among the
`known` ones is refused before its value is read. -/
def attributeStep (size : Nat) (known : List RawAttribute) (s : List Char) : AttributeStep :=
  match skipBlanks s with
  | [] => .done
  | c :: cs =>
    let n := keyLength (c :: cs)
    let key := (c :: cs).take n
    let position := size - Text.byteSize (c :: cs)
    match skipBlanks ((c :: cs).drop n) with
    | [] => .fault size .missingEquals
    | e :: rest =>
      if e == '=' then
        match known.find? (·.key == key) with
        | some a => .fault position (.duplicate a.position)
        | none => valueStep size key position rest
      else .fault (size - Text.byteSize (e :: rest)) .missingEquals

theorem length_skipBlanks_le (s : List Char) : (skipBlanks s).length ≤ s.length :=
  (List.dropWhile_sublist _).length_le

theorem length_of_splitAt? {p : Char → Bool} {s before after : List Char}
    (h : Text.splitAt? p s = some (before, after)) : after.length < s.length := by
  induction s generalizing before after with
  | nil => simp [Text.splitAt?] at h
  | cons c cs ih =>
    rw [Text.splitAt?] at h
    split at h
    · cases h; simp
    · obtain ⟨⟨b, a⟩, hs, heq⟩ := Option.map_eq_some_iff.1 h
      cases heq
      have := ih hs
      simp only [List.length_cons]
      omega

theorem length_of_valueStep {size position : Nat} {key s rest : List Char} {a : RawAttribute}
    (h : valueStep size key position s = .found a rest) : rest.length ≤ s.length := by
  have hb := length_skipBlanks_le s
  unfold valueStep at h
  split at h
  · cases h
  · next quote cs hs =>
    rw [hs, List.length_cons] at hb
    split at h
    · split at h
      · next hv =>
        cases h
        have := length_of_splitAt? hv
        omega
      · cases h
    · cases h

/-- Reading an attribute uses up some of the text. -/
theorem length_of_attributeStep {size : Nat} {known : List RawAttribute} {s rest : List Char}
    {a : RawAttribute} (h : attributeStep size known s = .found a rest) :
    rest.length < s.length := by
  have hb := length_skipBlanks_le s
  unfold attributeStep at h
  split at h
  · cases h
  · next c cs hs =>
    rw [hs, List.length_cons] at hb
    simp only at h
    split at h
    · cases h
    · next e cs' hk =>
      have hd := length_skipBlanks_le ((c :: cs).drop (keyLength (c :: cs)))
      rw [hk, List.length_cons, List.length_drop, List.length_cons] at hd
      split at h
      · split at h
        · cases h
        · have := length_of_valueStep h
          omega
      · cases h

/-- The attributes in order, up to the first fault.  When they are to be unique,
each is known to the ones after it. -/
def attributesFrom (size : Nat) (unique : Bool) (known : List RawAttribute) (s : List Char) :
    List (Except (Nat × AttributeFault) RawAttribute) :=
  match _h : attributeStep size known s with
  | .done => []
  | .fault position fault => [.error (position, fault)]
  | .found a rest =>
    .ok a :: attributesFrom size unique (if unique then known ++ [a] else known) rest
termination_by s.length
decreasing_by exact length_of_attributeStep _h

/-- The attributes after the name of a tag, which are unique. -/
def attributesOf (content : List Char) : List (Except (Nat × AttributeFault) RawAttribute) :=
  attributesFrom (Text.byteSize content) true [] (content.drop (tagName content).length)

/-! ## The declaration at the front -/

/-- The value of the first attribute of a key, if no fault comes before it. -/
def valueOf? (key : List Char) :
    List (Except (Nat × AttributeFault) RawAttribute) → Option (List Char)
  | .ok a :: rest => if a.key == key then some a.value else valueOf? key rest
  | _ => none

/-- The parts of an XML declaration that are kept, in a fixed order.  The version
has to come first; values stay as they are written. -/
def declarationBody (content : List Char) : List Char :=
  let attributes := attributesFrom (Text.byteSize content) false [] content
  let part (name : String) (value : Option (List Char)) : List Char :=
    match value with
    | some v => name.toList ++ '=' :: '"' :: v ++ ['"']
    | none => []
  part "version" (valueOf? "version".toList (attributes.take 1))
    ++ part " encoding" (valueOf? "encoding".toList attributes)
    ++ part " standalone" (valueOf? "standalone".toList attributes)

end Markup
end SvgCompact
