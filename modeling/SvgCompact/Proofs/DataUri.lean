import SvgCompact.DataUri
import SvgCompact.Proofs.Text.Trimming
import SvgCompact.Text.Base64
import SvgCompact.Text.Percent
import SvgCompact.Text.Utf8

/-!
Markup that is written as a `data:` URI is read back.

What is written as bytes, and bytes that are written as symbols, are read back.  Each of the
three codes works on small groups: a character, three bytes, one byte.  So one group is read
back in front of any others, and the rest is an induction.

Reading a URI is not told the mode.  It finds it in the parameters before the first comma
and in a percent sign in front of the payload, once blanks at both ends are gone.
-/

namespace SvgCompact

/-! ## Text as bytes -/

namespace Utf8

theorem toNat_ofNat {n : Nat} (hn : n < 256) : (UInt8.ofNat n).toNat = n :=
  UInt8.toNat_ofNat_of_lt hn

theorem le_ofNat_iff {m n : Nat} (hm : m < 256) (hn : n < 256) :
    UInt8.ofNat m ≤ UInt8.ofNat n ↔ m ≤ n := by
  rw [UInt8.le_iff_toNat_le, toNat_ofNat hm, toNat_ofNat hn]

/-- A byte that continues a character adds six bits to its code. -/
theorem continued_ofNat {k : Nat} (hk : k < 64) (code taken more : Nat) (bs : List UInt8) :
    continued code taken (more + 1) (UInt8.ofNat (k + 128) :: bs) =
      continued (64 * code + k) (taken + 1) more bs := by
  have hrange : 0x80 ≤ UInt8.ofNat (k + 128) ∧ UInt8.ofNat (k + 128) ≤ 0xbf :=
    ⟨(le_ofNat_iff (m := 128) (by omega) (by omega)).2 (by omega),
      (le_ofNat_iff (n := 191) (by omega) (by omega)).2 (by omega)⟩
  rw [continued, if_pos hrange, toNat_ofNat (by omega)]
  congr 1
  omega

theorem shape?_two : ∀ k < 32, 2 ≤ k →
    shape? (UInt8.ofNat (k + 192)) = some (UInt8.ofNat 0x80, UInt8.ofNat 0xbf, 0) := by
  decide

theorem shape?_three : ∀ k < 16, shape? (UInt8.ofNat (k + 224)) =
    some (UInt8.ofNat (if k = 0 then 0xa0 else 0x80), UInt8.ofNat (if k = 13 then 0x9f else 0xbf),
      1) := by
  decide

theorem shape?_four : ∀ k < 5, shape? (UInt8.ofNat (k + 240)) =
    some (UInt8.ofNat (if k = 0 then 0x90 else 0x80), UInt8.ofNat (if k = 4 then 0x8f else 0xbf),
      2) := by
  decide

/-- A first byte of some shape, and a second that lies within it. -/
theorem firstChar_of_shape {first k least greatest more : Nat} {rest : List UInt8}
    (hshape : shape? (UInt8.ofNat first) = some (UInt8.ofNat least, UInt8.ofNat greatest, more))
    (hfirst : 128 ≤ first) (hlt : first < 256) (hleast : least ≤ k + 128)
    (hgreatest : k + 128 ≤ greatest) (hbyte : greatest < 256) (hk : k < 64) :
    firstChar (UInt8.ofNat first) (UInt8.ofNat (k + 128) :: rest) =
      (continued (64 * leading (UInt8.ofNat first) more + k) 2 more rest).map fun code =>
        (Char.ofNat code, more + 1) := by
  have hlow : ¬ UInt8.ofNat first < 0x80 := by
    rw [UInt8.not_lt]
    exact (le_ofNat_iff (m := 128) (by omega) hlt).2 hfirst
  have hwithin : UInt8.ofNat least ≤ UInt8.ofNat (k + 128) ∧
      UInt8.ofNat (k + 128) ≤ UInt8.ofNat greatest :=
    ⟨(le_ofNat_iff (by omega) (by omega)).2 hleast, (le_ofNat_iff (by omega) hbyte).2 hgreatest⟩
  have hbits : (UInt8.ofNat (k + 128)).toNat % 64 = k := by
    rw [toNat_ofNat (by omega)]
    omega
  unfold firstChar
  rw [if_neg hlow]
  simp only [hshape, if_pos hwithin, hbits]

/-- The bytes of a character are read back in front of any others. -/
theorem firstChar_encodeChar (c : Char) (rest : List UInt8) :
    ∃ first others, String.utf8EncodeChar c = first :: others ∧
      firstChar first (others ++ rest) = .ok (c, others.length) := by
  -- surrogates are no characters, and neither is what lies beyond the last code point
  have hvalid : c.toNat < 0xd800 ∨ 0xdfff < c.toNat ∧ c.toNat < 0x110000 := c.valid
  have hread : ∀ code more : Nat, code = c.toNat →
      (Except.ok code : Except Fault Nat).map (fun code => (Char.ofNat code, more)) =
        .ok (c, more) := by
    rintro code more rfl
    rw [Except.map, Char.ofNat_toNat]
  unfold String.utf8EncodeChar
  simp only [show c.val.toNat = c.toNat from rfl]
  generalize c.toNat = v at hvalid hread
  split
  · next hone =>
    have hlow : UInt8.ofNat v < 0x80 := by
      rw [UInt8.lt_iff_toNat_lt, toNat_ofNat (by omega)]
      exact Nat.lt_succ_of_le hone
    refine ⟨_, _, rfl, ?_⟩
    unfold firstChar
    rw [if_pos hlow, toNat_ofNat (by omega)]
    exact hread v 0 rfl
  · split
    · next hone htwo =>
      have hlead : leading (UInt8.ofNat (v / 64 % 32 + 192)) 0 = v / 64 := by
        show (UInt8.ofNat _).toNat % 32 = _
        rw [toNat_ofNat (by omega)]
        omega
      refine ⟨_, _, rfl, ?_⟩
      rw [List.singleton_append, firstChar_of_shape (shape?_two _ (by omega) (by omega)) (by omega)
        (by omega) (by omega) (by omega) (by omega) (by omega), hlead]
      exact hread _ 1 (by omega)
    · split
      · next hone htwo hthree =>
        have hlead : leading (UInt8.ofNat (v / 4096 % 16 + 224)) 1 = v / 4096 := by
          show (UInt8.ofNat _).toNat % 16 = _
          rw [toNat_ofNat (by omega)]
          omega
        refine ⟨_, _, rfl, ?_⟩
        rw [List.cons_append, firstChar_of_shape (shape?_three _ (by omega)) (by omega) (by omega)
          (by split <;> omega) (by split <;> omega) (by split <;> omega) (by omega), hlead,
          List.singleton_append, continued_ofNat (by omega)]
        exact hread _ 2 (by omega)
      · next hone htwo hthree =>
        have hlead : leading (UInt8.ofNat (v / 262144 % 8 + 240)) 2 = v / 262144 := by
          show (UInt8.ofNat _).toNat % 8 = _
          rw [toNat_ofNat (by omega)]
          omega
        refine ⟨_, _, rfl, ?_⟩
        rw [List.cons_append, firstChar_of_shape (shape?_four _ (by omega)) (by omega) (by omega)
          (by split <;> omega) (by split <;> omega) (by split <;> omega) (by omega), hlead,
          List.cons_append, continued_ofNat (by omega), List.singleton_append,
          continued_ofNat (by omega)]
        exact hread _ 3 (by omega)

theorem decodeFrom_encode (s : List Char) (index : Nat) : decodeFrom index (encode s) = .ok s := by
  induction s generalizing index with
  | nil => rw [encode, List.flatMap_nil, decodeFrom]
  | cons c cs ih =>
    obtain ⟨first, others, hbytes, hfirst⟩ := firstChar_encodeChar c (encode cs)
    have hcons : encode (c :: cs) = first :: (others ++ encode cs) := by
      rw [encode, List.flatMap_cons, hbytes]
      rfl
    rw [hcons, decodeFrom, hfirst]
    simp only [List.drop_left, ih]
    rfl

theorem decode_encode (s : List Char) : decode (encode s) = .ok s :=
  decodeFrom_encode s 0

end Utf8

/-- Whether all bytes stand for characters of ASCII that can be seen. -/
def AreVisible (bs : List UInt8) : Prop :=
  ∀ b ∈ bs, 0x21 ≤ b.toNat ∧ b.toNat < 0x7f

/-! ## Percent signs -/

namespace Percent

theorem digitValue?_digit : ∀ n < 16, digitValue? (digit n) = some n := by
  decide

theorem visible_digit : ∀ n < 16, 0x21 ≤ (digit n).toNat ∧ (digit n).toNat < 0x7f := by
  decide

theorem pair?_digits (b : UInt8) :
    pair? (digit (b.toNat / 16)) (digit (b.toNat % 16)) = some b := by
  have hb := b.toNat_lt
  rw [pair?, digitValue?_digit _ (by omega), digitValue?_digit _ (by omega)]
  show some (UInt8.ofNat (16 * (b.toNat / 16) + b.toNat % 16)) = some b
  rw [Nat.div_add_mod, UInt8.ofNat_toNat]

theorem decode_cons_of_ne {b : UInt8} (hb : b ≠ sign) (rest : List UInt8) :
    decode (b :: rest) = b :: decode rest := by
  rcases rest with _ | ⟨c, _ | ⟨d, rest⟩⟩
  · rw [decode, decode]
  · rw [decode, decode]
  · rw [decode, if_neg hb]

/-- The symbols of a byte are read back in front of any others. -/
theorem decode_encodeByte (b : UInt8) (rest : List UInt8) :
    decode (encodeByte b ++ rest) = b :: decode rest := by
  rw [encodeByte]
  split
  · next hplain =>
    refine decode_cons_of_ne ?_ rest
    rintro rfl
    exact absurd hplain (by decide)
  · show decode (sign :: _ :: _ :: rest) = _
    rw [decode, if_pos rfl, pair?_digits]

theorem decode_encode (bs : List UInt8) : decode (encode bs) = bs := by
  induction bs with
  | nil => rfl
  | cons b bs ih => rw [encode, List.flatMap_cons, decode_encodeByte, ← encode, ih]

theorem areVisible_encode (bs : List UInt8) : AreVisible (encode bs) := by
  intro x hx
  obtain ⟨b, -, hx⟩ := List.mem_flatMap.1 hx
  have hb := b.toNat_lt
  rw [encodeByte] at hx
  split at hx
  · next hplain =>
    obtain rfl := List.mem_singleton.1 hx
    simp only [isPlain, Bool.or_eq_true, Bool.and_eq_true, decide_eq_true_eq, beq_iff_eq] at hplain
    omega
  · simp only [List.mem_cons, List.not_mem_nil, or_false] at hx
    rcases hx with rfl | rfl | rfl
    · decide
    · exact visible_digit _ (by omega)
    · exact visible_digit _ (by omega)

/-- A byte that is not plain is written with a percent sign in front. -/
theorem head?_encode {b : UInt8} (hb : isPlain b = false) (bs : List UInt8) :
    (encode (b :: bs)).head? = some sign := by
  rw [encode, List.flatMap_cons, encodeByte, if_neg (by simp [hb])]
  rfl

end Percent

/-! ## Sixty-four symbols -/

namespace Base64

theorem value?_symbol : ∀ n < 64, value? (symbol n) = some n := by
  decide

theorem symbol_ne_padding : ∀ n < 64, symbol n ≠ padding := by
  decide

theorem visible_symbol : ∀ n < 64, 0x21 ≤ (symbol n).toNat ∧ (symbol n).toNat < 0x7f := by
  decide

theorem values_symbols (offset : Nat) {ns : List Nat} (h : ∀ n ∈ ns, n < 64) :
    values offset (ns.map symbol) = .ok ns := by
  induction ns generalizing offset with
  | nil => rfl
  | cons n ns ih =>
    obtain ⟨hn, hns⟩ := List.forall_mem_cons.1 h
    rw [List.map_cons, values, value?_symbol n hn]
    simp only [ih _ hns]
    rfl

/-- Whether numbers below 64 say just what some bytes do. -/
structure Spell (ns : List Nat) (bs : List UInt8) : Prop where
  small : ∀ n ∈ ns, n < 64
  bytes_eq : bytes ns = (bs, 0)

theorem spell_three (a b c : UInt8) :
    let n := (a.toNat * 256 + b.toNat) * 256 + c.toNat
    Spell [n / 0x40000, n / 0x1000 % 64, n / 64 % 64, n % 64] [a, b, c] := by
  have ha := a.toNat_lt
  have hb := b.toNat_lt
  have hc := c.toNat_lt
  intro n
  constructor
  · simp only [List.mem_cons, List.not_mem_nil, or_false, forall_eq_or_imp, forall_eq]
    omega
  have hfirst : n / 0x40000 * 4 + n / 0x1000 % 64 / 16 = a.toNat := by omega
  have hsecond : n / 0x1000 % 64 % 16 * 16 + n / 64 % 64 / 4 = b.toNat := by omega
  have hthird : n / 64 % 64 % 4 * 64 + n % 64 = c.toNat := by omega
  rw [bytes, hfirst, hsecond, hthird, UInt8.ofNat_toNat, UInt8.ofNat_toNat, UInt8.ofNat_toNat]

theorem spell_two (a b : UInt8) :
    let n := (a.toNat * 256 + b.toNat) * 4
    Spell [n / 0x1000, n / 64 % 64, n % 64] [a, b] := by
  have ha := a.toNat_lt
  have hb := b.toNat_lt
  intro n
  constructor
  · simp only [List.mem_cons, List.not_mem_nil, or_false, forall_eq_or_imp, forall_eq]
    omega
  have hfirst : n / 0x1000 * 4 + n / 64 % 64 / 16 = a.toNat := by omega
  have hsecond : n / 64 % 64 % 16 * 16 + n % 64 / 4 = b.toNat := by omega
  have hsurplus : n % 64 % 4 = 0 := by omega
  rw [bytes, hfirst, hsecond, hsurplus, UInt8.ofNat_toNat, UInt8.ofNat_toNat]

theorem spell_one (a : UInt8) :
    let n := a.toNat * 16
    Spell [n / 64, n % 64] [a] := by
  have ha := a.toNat_lt
  intro n
  constructor
  · simp only [List.mem_cons, List.not_mem_nil, or_false, forall_eq_or_imp, forall_eq]
    omega
  have hfirst : n / 64 * 4 + n % 64 / 16 = a.toNat := by omega
  have hsurplus : n % 64 % 16 = 0 := by omega
  rw [bytes, hfirst, hsurplus, UInt8.ofNat_toNat]

/-- A last group is read, with the padding that fills it up. -/
theorem Spell.decodeLast {ns : List Nat} {bs : List UInt8} (h : Spell ns bs) (offset : Nat)
    {k : Nat} (hlength : 2 ≤ ns.length) (hgroup : ns.length + k = 4) :
    Base64.decodeLast offset (ns.map symbol ++ List.replicate k padding) = .ok bs := by
  have hnone : ∀ b ∈ ns.map symbol, (b != padding) = true := by
    intro b hb
    obtain ⟨n, hn, rfl⟩ := List.mem_map.1 hb
    exact bne_iff_ne.2 (symbol_ne_padding n (h.small n hn))
  have hsymbols : (ns.map symbol ++ List.replicate k padding).takeWhile (· != padding) =
      ns.map symbol := by
    rw [List.takeWhile_append_of_pos hnone, List.takeWhile_replicate, if_neg (by decide),
      List.append_nil]
  have hsigns : (ns.map symbol ++ List.replicate k padding).dropWhile (· != padding) =
      List.replicate k padding := by
    rw [List.dropWhile_append_of_pos hnone, List.dropWhile_replicate, if_neg (by decide)]
  have hlt : ¬ (ns.map symbol).length < 2 := by
    rw [List.length_map]
    omega
  have hpadding : (List.replicate k padding).any (· != padding) = false := by
    simp
  have hstray : (!(List.replicate k padding).isEmpty && (decide ((ns.map symbol).length < 2) ||
      (List.replicate k padding).any (· != padding))) = false := by
    rw [decide_eq_false hlt, hpadding, Bool.or_false, Bool.and_false]
  have hlone : (!(ns.map symbol ++ List.replicate k padding).isEmpty &&
      decide ((ns.map symbol).length < 2)) = false := by
    rw [decide_eq_false hlt, Bool.and_false]
  have hfull : (ns.map symbol ++ List.replicate k padding).length % 4 = 0 := by
    rw [List.length_append, List.length_map, List.length_replicate, hgroup]
  unfold Base64.decodeLast
  simp only [hsymbols, hsigns, values_symbols offset h.small, hstray, hlone, hfull, bind,
    Except.bind, h.bytes_eq]
  rfl

theorem decodeGroups_encode (bs : List UInt8) (offset : Nat) :
    decodeGroups offset (encode bs) = .ok bs := by
  induction bs using encode.induct generalizing offset with
  | case1 a b c rest ih =>
    have h := spell_three a b c
    dsimp only at h
    rw [encode]
    cases hrest : encode rest with
    | nil =>
      -- nothing but the empty list is written as nothing
      have hnil : rest = [] := by
        have hread := ih offset
        rw [hrest] at hread
        exact (Except.ok.inj hread).symm
      rw [hnil]
      exact h.decodeLast offset (k := 0) (by simp) rfl
    | cons e others =>
      have hvalues := values_symbols offset h.small
      simp only [List.map_cons, List.map_nil] at hvalues
      have hread := ih (offset + 4)
      rw [hrest] at hread
      rw [decodeGroups, hvalues, hread]
      simp only [bind, Except.bind, h.bytes_eq]
      rfl
  | case2 a b =>
    rw [encode]
    exact (spell_two a b).decodeLast offset (k := 1) (by simp) rfl
  | case3 a =>
    rw [encode]
    exact (spell_one a).decodeLast offset (k := 2) (by simp) rfl
  | case4 => rfl

theorem length_encode (bs : List UInt8) : (encode bs).length % 4 = 0 := by
  induction bs using encode.induct with
  | case1 a b c rest ih =>
    rw [encode]
    simp only [List.length_cons]
    omega
  | case2 a b => simp [encode]
  | case3 a => simp [encode]
  | case4 => rfl

theorem decode_encode (bs : List UInt8) : decode (encode bs) = .ok bs := by
  have hnone : strayLast? (encode bs) = none := by
    rw [strayLast?, if_neg]
    rw [length_encode]
    decide
  rw [decode, hnone]
  exact decodeGroups_encode bs 0

theorem Spell.areVisible {ns : List Nat} {bs : List UInt8} (h : Spell ns bs) :
    AreVisible (ns.map symbol) := by
  intro b hb
  obtain ⟨n, hn, rfl⟩ := List.mem_map.1 hb
  exact visible_symbol n (h.small n hn)

theorem areVisible_encode (bs : List UInt8) : AreVisible (encode bs) := by
  induction bs using encode.induct with
  | case1 a b c rest ih =>
    rw [encode]
    exact List.forall_mem_append.2 ⟨(spell_three a b c).areVisible, ih⟩
  | case2 a b =>
    rw [encode]
    exact List.forall_mem_append.2 ⟨(spell_two a b).areVisible, by simp [padding]⟩
  | case3 a =>
    rw [encode]
    exact List.forall_mem_append.2 ⟨(spell_one a).areVisible, by simp [padding]⟩
  | case4 => exact List.forall_mem_nil _

end Base64

namespace DataUri

open Text (isBlank trim)

/-! ## Visible bytes as text -/

theorem toNat_ofNat {n : Nat} (hn : n < 0x80) : (Char.ofNat n).toNat = n := by
  rw [Char.ofNat, dif_pos (show n.isValidChar from Or.inl (by omega))]
  rfl

theorem encode_ofAscii {bs : List UInt8} (h : AreVisible bs) : Utf8.encode (ofAscii bs) = bs := by
  induction bs with
  | nil => rfl
  | cons b bs ih =>
    obtain ⟨hb, hbs⟩ := List.forall_mem_cons.1 h
    have hchar : String.utf8EncodeChar (Char.ofNat b.toNat) = [b] := by
      have hval : (Char.ofNat b.toNat).val.toNat = b.toNat := toNat_ofNat (by omega)
      unfold String.utf8EncodeChar
      rw [hval, if_pos (by omega), UInt8.ofNat_toNat]
    rw [ofAscii, List.map_cons, Utf8.encode, List.flatMap_cons, hchar, ← ofAscii, ← Utf8.encode,
      ih hbs]
    rfl

theorem not_isBlank_of_mem_ofAscii {bs : List UInt8} (h : AreVisible bs) {c : Char}
    (hc : c ∈ ofAscii bs) : isBlank c = false := by
  obtain ⟨b, hb, rfl⟩ := List.mem_map.1 hc
  obtain ⟨hlow, hhigh⟩ := h b hb
  simp only [isBlank, toNat_ofNat (show b.toNat < 0x80 by omega), Bool.or_eq_false_iff,
    Bool.and_eq_false_imp, beq_eq_false_iff_ne, decide_eq_true_eq, decide_eq_false_iff_not]
  omega

theorem trim_ofAscii {bs : List UInt8} (h : AreVisible bs) : trim (ofAscii bs) = ofAscii bs :=
  Text.trimBy_eq_self (fun _ hc => not_isBlank_of_mem_ofAscii h (List.mem_of_head? hc))
    fun _ hc => not_isBlank_of_mem_ofAscii h (List.mem_of_getLast? hc)

/-! ## Parameters and payload -/

/-- A URI is taken apart at its first comma. -/
theorem decode_of_parts {s : String} (parameters : List Char) {data : List Char} {base64 : Bool}
    (hs : s.toList = scheme.toList ++ (parameters ++ ',' :: data)) (hcomma : ',' ∉ parameters)
    (hlast : ∀ c ∈ data.getLast?, isBlank c = false)
    (hread : readParameters false ((parameters.splitOnP (· == ';')).filter (!·.isEmpty)) =
      some base64) :
    decode s = decodePayload base64 data := by
  have htrim : trim s.toList = s.toList := by
    refine Text.trimBy_eq_self ?_ ?_
    · rw [hs]
      simp [scheme, isBlank]
    · rw [hs, ← List.append_assoc]
      simp only [List.getLast?_append, List.getLast?_cons, Option.some_or, Option.mem_some_iff,
        forall_eq']
      cases hdata : data.getLast? with
      | none => rfl
      | some c => exact hlast c hdata
  have hparts : Text.splitAt? (· == ',') (parameters ++ ',' :: data) = some (parameters, data) :=
    Text.splitAt?_eq_some_iff.2 ⟨',', by simp, rfl, fun x hx => by
      rw [beq_eq_false_iff_ne]
      rintro rfl
      exact hcomma hx⟩
  unfold decode
  rw [htrim, hs, Text.after?_append, Option.bind_some, hparts]
  simp only [hread]

theorem readUtf8_encode (s : String) : readUtf8 (Utf8.encode s.toList) = .ok s := by
  rw [readUtf8, Utf8.decode_encode]
  simp [Except.map, Except.mapError]

/-! ## The three modes -/

theorem decode_base64 (s : String) : decode (encode .base64 s) = .ok s := by
  have hvisible := Base64.areVisible_encode (Utf8.encode s.toList)
  have huri : decode (encode .base64 s) =
      decodePayload true (ofAscii (Base64.encode (Utf8.encode s.toList))) :=
    decode_of_parts ";base64".toList (by simp [encode]) (by simp)
      (fun c hc => not_isBlank_of_mem_ofAscii hvisible (List.mem_of_getLast? hc)) (by rfl)
  rw [huri, decodePayload, if_pos rfl, trim_ofAscii hvisible, encode_ofAscii hvisible,
    Base64.decode_encode]
  exact readUtf8_encode s

/-- Without a percent sign in front, a text of plain characters would be taken as it
stands. -/
theorem decode_percent {s : String} {b : UInt8} (hfirst : (Utf8.encode s.toList).head? = some b)
    (hb : Percent.isPlain b = false) : decode (encode .percent s) = .ok s := by
  have hvisible := Percent.areVisible_encode (Utf8.encode s.toList)
  have huri : decode (encode .percent s) =
      decodePayload false (ofAscii (Percent.encode (Utf8.encode s.toList))) :=
    decode_of_parts [] (by simp [encode]) List.not_mem_nil
      (fun c hc => not_isBlank_of_mem_ofAscii hvisible (List.mem_of_getLast? hc)) rfl
  have hsign : (ofAscii (Percent.encode (Utf8.encode s.toList))).head? = some '%' := by
    obtain ⟨rest, hrest⟩ := List.head?_eq_some_iff.1 hfirst
    rw [ofAscii, List.head?_map, hrest, Percent.head?_encode hb]
    rfl
  rw [huri, decodePayload, if_neg Bool.false_ne_true, hsign, if_pos (by simp),
    encode_ofAscii hvisible, Percent.decode_encode]
  exact readUtf8_encode s

theorem decode_plain {s : String} (hsign : s.toList.head? ≠ some '%')
    (hlast : ∀ c ∈ s.toList.getLast?, isBlank c = false) : decode (encode .plain s) = .ok s := by
  have huri : decode (encode .plain s) = decodePayload false s.toList :=
    decode_of_parts [] (by simp [encode]) List.not_mem_nil hlast rfl
  rw [huri, decodePayload, if_neg Bool.false_ne_true, if_neg (by simpa using hsign),
    String.ofList_toList]

/-- Markup comes back from each mode, whatever stands between its first and its last
bracket: commas, percent signs, other URIs or characters beyond ASCII. -/
theorem decode_encode_markup {s : String} (hopen : s.toList.head? = some '<')
    (hclose : s.toList.getLast? = some '>') (mode : Mode) : decode (encode mode s) = .ok s := by
  cases mode with
  | base64 => exact decode_base64 s
  | percent =>
    refine decode_percent (b := 60) ?_ (by decide)
    obtain ⟨rest, hrest⟩ := List.head?_eq_some_iff.1 hopen
    rw [hrest, Utf8.encode, List.flatMap_cons]
    rfl
  | plain =>
    refine decode_plain (by simp [hopen]) ?_
    rw [hclose]
    simp [isBlank]

/-- A picture inside a picture, written with percent signs and beside a base64 mark. -/
theorem decode_encode_embedded :
    let s := "<svg><image href='data:image/svg+xml,%3Csvg/%3E;base64,'/>Größe 90 %</svg>"
    s.toList.head? = some '<' ∧ s.toList.getLast? = some '>' ∧
      ∀ mode, decode (encode mode s) = .ok s :=
  ⟨by simp, by simp, decode_encode_markup (by simp) (by simp)⟩

end DataUri
end SvgCompact
