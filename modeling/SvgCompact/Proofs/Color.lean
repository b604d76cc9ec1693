import SvgCompact.Proofs.Css.Declarations
import SvgCompact.Proofs.Pass.Spelling

/-!
The spelling of a color is canonical.

What is written for a color either is read back as that color or is a word, which is not
read at all.  So a spelling is never shortened twice, and hexadecimal colors are spelled the
same if and only if they are the same color: `shorten_canonical`.
-/

namespace SvgCompact
namespace Color

open Text (byteSize trim)

variable {s : List Char} {text : String} {c d : Color}

/-! ## Reading what was written -/

theorem digitValue?_digitChar : ∀ n < 16, digitValue? (digitChar n).toLower = some n := by
  decide

theorem mapM_digitValue?_digitChar {ns : List Nat} (h : ∀ n ∈ ns, n < 16) :
    (Text.lower (ns.map digitChar)).mapM digitValue? = some ns := by
  rw [Pass.mapM_eq_some_iff, Text.lower, List.map_map, List.map_map]
  exact List.map_congr_left fun n hn => digitValue?_digitChar n (h n hn)

theorem byteOf_high_low (b : UInt8) : byteOf (high b) (low b) = b := by
  rw [byteOf, high, low, Nat.div_add_mod, UInt8.ofNat_toNat]

theorem ofDigits?_digits (c : Color) : ofDigits? c.digits = some c := by
  rw [digits]
  split
  · next hdoubled =>
    -- the one digit of a byte stands for both
    have hbyte : ∀ b ∈ [c.red, c.green, c.blue], byteOf (low b) (low b) = b := by
      intro b hb
      have hsame := eq_of_beq (List.all_eq_true.1 hdoubled b hb)
      calc byteOf (low b) (low b) = byteOf (high b) (low b) := by rw [hsame]
        _ = b := byteOf_high_low b
    simp only [List.map_cons, List.map_nil, ofDigits?, hbyte c.red (by simp),
      hbyte c.green (by simp), hbyte c.blue (by simp)]
  · simp only [List.flatMap_cons, List.flatMap_nil, List.cons_append, List.nil_append, ofDigits?,
      byteOf_high_low]

/-- Hexadecimal digits are read back. -/
theorem read?_digits (c : Color) : read? ('#' :: c.digits.map digitChar) = some c := by
  have hmark : Text.lower ('#' :: c.digits.map digitChar) =
      '#' :: Text.lower (c.digits.map digitChar) := rfl
  rw [read?, hmark, readLower?, mapM_digitValue?_digitChar fun n => lt_of_mem_digits,
    Option.bind_some, ofDigits?_digits]

/-- No word is read. -/
theorem read?_word : ∀ x ∈ words, read? x.2.toList = none := by
  decide

theorem write_cases (c : Color) :
    (∃ x ∈ words, x.1 = c ∧ c.write = x.2.toList) ∨ c.write = '#' :: c.digits.map digitChar := by
  rw [write]
  split
  · next word hword =>
    have hcolor := List.find?_some hword
    exact .inl ⟨_, List.mem_of_find?_eq_some hword, eq_of_beq hcolor, rfl⟩
  · exact .inr rfl

theorem trim_write (c : Color) : trim c.write = c.write := by
  have hwords : ∀ x ∈ words, x.2.toList.any Text.isBlank = false := by decide
  have hdigits : ∀ n < 16, Text.isBlank (digitChar n) = false := by decide
  refine Css.trim_eq_self ?_
  rcases write_cases c with ⟨x, hx, -, hwrite⟩ | hwrite
  · rw [hwrite]
    simpa using hwords x hx
  · rw [hwrite]
    refine List.forall_mem_cons.2 ⟨by decide, fun ch hch => ?_⟩
    obtain ⟨n, hn, rfl⟩ := List.mem_map.1 hch
    exact hdigits n (lt_of_mem_digits hn)

theorem write_injective (h : c.write = d.write) : c = d := by
  have hinitial : ∀ x ∈ words, x.2.toList.head? ≠ some '#' := by decide
  have hnodup : (words.map (·.2)).Nodup := by decide
  rcases write_cases c with ⟨x, hx, rfl, hc⟩ | hc <;>
    rcases write_cases d with ⟨y, hy, rfl, hd⟩ | hd
  · rw [hc, hd] at h
    rw [List.inj_on_of_nodup_map hnodup hx hy (String.toList_injective h)]
  · rw [hc, hd] at h
    exact absurd (congrArg List.head? h) (hinitial x hx)
  · rw [hc, hd] at h
    exact absurd (congrArg List.head? h.symm) (hinitial y hy)
  · rw [hc, hd] at h
    exact Option.some.inj ((read?_digits c).symm.trans ((congrArg read? h).trans (read?_digits d)))

/-! ## Shortening -/

theorem shorten_of_read? (h : read? (trim text.toList) = some c) :
    shorten text = String.ofList c.write := by
  rw [shorten, h]

theorem shorten_of_not_read? (h : read? (trim text.toList) = none) :
    shorten text = String.ofList (trim text.toList) := by
  rw [shorten, h]

/-- A written color stays as it is: a word because it is not read, digits because they are
read as the color. -/
theorem shorten_write (c : Color) : shorten (String.ofList c.write) = String.ofList c.write := by
  have htrim : trim (String.ofList c.write).toList = c.write := by
    rw [String.toList_ofList, trim_write]
  rcases write_cases c with ⟨x, hx, rfl, hwrite⟩ | hwrite
  · rw [shorten_of_not_read?, htrim]
    rw [htrim, hwrite, read?_word x hx]
  · refine shorten_of_read? ?_
    rw [htrim, hwrite, read?_digits]

theorem shorten_shorten (text : String) : shorten (shorten text) = shorten text := by
  cases h : read? (trim text.toList) with
  | some c => rw [shorten_of_read? h, shorten_write]
  | none =>
    have htrim : trim (String.ofList (trim text.toList)).toList = trim text.toList := by
      rw [String.toList_ofList]
      exact Text.trimBy_trimBy _ _
    rw [shorten_of_not_read? h, shorten_of_not_read? (by rw [htrim, h]), htrim]

theorem byteSize_shorten_le (text : String) :
    byteSize (shorten text).toList ≤ byteSize (trim text.toList) := by
  cases h : read? (trim text.toList) with
  | some c =>
    rw [shorten_of_read? h, String.toList_ofList]
    calc byteSize c.write ≤ Markup.escapedSize c.write := Markup.byteSize_le_escapedSize _
      _ ≤ (trim text.toList).length := escapedSize_write_le_of_read? h
      _ ≤ byteSize (trim text.toList) := Text.length_le_byteSize _
  | none => rw [shorten_of_not_read? h, String.toList_ofList]

/-! ## Hexadecimal colors -/

/-- The hexadecimal digit of a value, in either case. -/
def IsDigitOf (n : Nat) (c : Char) : Prop :=
  "0123456789abcdef".toList[n]? = some c ∨ "0123456789ABCDEF".toList[n]? = some c

/-- The color that a text of a hash sign and three or six hexadecimal digits denotes.  Three
digits are doubled. -/
inductive Denotes : List Char → Color → Prop
  | short {r g b : Nat} {cr cg cb : Char} (hr : IsDigitOf r cr) (hg : IsDigitOf g cg)
      (hb : IsDigitOf b cb) :
      Denotes ['#', cr, cg, cb]
        ⟨.ofNat (16 * r + r), .ofNat (16 * g + g), .ofNat (16 * b + b)⟩
  | long {r r' g g' b b' : Nat} {cr cr' cg cg' cb cb' : Char} (hr : IsDigitOf r cr)
      (hr' : IsDigitOf r' cr') (hg : IsDigitOf g cg) (hg' : IsDigitOf g' cg')
      (hb : IsDigitOf b cb) (hb' : IsDigitOf b' cb') :
      Denotes ['#', cr, cr', cg, cg', cb, cb']
        ⟨.ofNat (16 * r + r'), .ofNat (16 * g + g'), .ofNat (16 * b + b')⟩

theorem IsDigitOf.digitValue? {n : Nat} {ch : Char} (h : IsDigitOf n ch) :
    digitValue? ch.toLower = some n := by
  have hlower : ∀ n < 16, ("0123456789abcdef".toList[n]?).bind
      (Color.digitValue? ·.toLower) = some n := by decide
  have hupper : ∀ n < 16, ("0123456789ABCDEF".toList[n]?).bind
      (Color.digitValue? ·.toLower) = some n := by decide
  rcases h with h | h
  · have hn := hlower n (List.getElem?_eq_some_iff.1 h).1
    rwa [h] at hn
  · have hn := hupper n (List.getElem?_eq_some_iff.1 h).1
    rwa [h] at hn

theorem Denotes.read? (h : Denotes s c) : read? s = some c := by
  have hmark : ∀ digits : List Char, Color.read? ('#' :: digits) =
      ((Text.lower digits).mapM digitValue?).bind ofDigits? := fun _ => rfl
  cases h with
  | short hr hg hb =>
    rw [hmark]
    simp only [Text.lower, List.map_cons, List.map_nil, List.mapM_cons, List.mapM_nil,
      hr.digitValue?, hg.digitValue?, hb.digitValue?]
    rfl
  | long hr hr' hg hg' hb hb' =>
    rw [hmark]
    simp only [Text.lower, List.map_cons, List.map_nil, List.mapM_cons, List.mapM_nil,
      hr.digitValue?, hr'.digitValue?, hg.digitValue?, hg'.digitValue?, hb.digitValue?,
      hb'.digitValue?]
    rfl

/-- Shortening twice is shortening once, makes no text longer, and gives two hexadecimal
colors the same spelling exactly if they denote the same color. -/
theorem shorten_canonical :
    (∀ text, shorten (shorten text) = shorten text) ∧
    (∀ text, byteSize (shorten text).toList ≤ byteSize (trim text.toList)) ∧
    ∀ {text other : String} {c d : Color}, Denotes (trim text.toList) c →
      Denotes (trim other.toList) d → (shorten text = shorten other ↔ c = d) := by
  refine ⟨shorten_shorten, byteSize_shorten_le, fun hc hd => ?_⟩
  rw [shorten_of_read? hc.read?, shorten_of_read? hd.read?]
  refine ⟨fun h => write_injective (String.ofList_injective h), fun h => by rw [h]⟩

/-- Red in three digits and in six, and a color that is one digit off. -/
theorem shorten_canonical_red :
    Denotes (trim " #F00".toList) ⟨0xff, 0, 0⟩ ∧ Denotes (trim "#fF0000\t".toList) ⟨0xff, 0, 0⟩ ∧
      Denotes (trim "#f10000".toList) ⟨0xf1, 0, 0⟩ ∧
      shorten " #F00" = shorten "#fF0000\t" ∧ shorten " #F00" ≠ shorten "#f10000" := by
  have hzero : IsDigitOf 0 '0' := .inl rfl
  have hone : IsDigitOf 1 '1' := .inl rfl
  have hlower : IsDigitOf 15 'f' := .inl rfl
  have hupper : IsDigitOf 15 'F' := .inr rfl
  have hshort : Denotes (trim " #F00".toList) ⟨0xff, 0, 0⟩ := .short hupper hzero hzero
  have hlong : Denotes (trim "#fF0000\t".toList) ⟨0xff, 0, 0⟩ :=
    .long hlower hupper hzero hzero hzero hzero
  have hother : Denotes (trim "#f10000".toList) ⟨0xf1, 0, 0⟩ :=
    .long hlower hone hzero hzero hzero hzero
  refine ⟨hshort, hlong, hother, (shorten_canonical.2.2 hshort hlong).2 rfl, fun h => ?_⟩
  exact absurd ((shorten_canonical.2.2 hshort hother).1 h) (by decide)

end Color
end SvgCompact
