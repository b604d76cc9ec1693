import SvgCompact.Proofs.Decimal.Numeral
import SvgCompact.Proofs.Decimal.Shortest

/-!
Written numbers read back.

The text of a double is a numeral for its shortest digits.  These are within the reach
of the double, so that the reader rounds them to it, and they stay the same number where
`.0` or a zero in front of the point is left out.
-/

namespace SvgCompact
namespace Decimal

variable {negative : Bool} {mantissa : ℕ} {exponent : ℤ} {x : Float}

/-! ## Digits -/

theorem allDigits_toDigits (n : ℕ) : AllDigits (Nat.toDigits 10 n) :=
  fun _ hc => Nat.isDigit_of_mem_toDigits (by decide) (by decide) hc

theorem allDigits_zeros (k : ℤ) : AllDigits (Layout.zeros k) := by
  intro c hc
  rw [Layout.zeros, List.mem_replicate] at hc
  rw [hc.2]
  rfl

theorem AllDigits.append {s t : List Char} (hs : AllDigits s) (ht : AllDigits t) :
    AllDigits (s ++ t) := by
  intro c hc
  rcases List.mem_append.1 hc with h | h
  · exact hs c h
  · exact ht c h

theorem ofDigits_eq (digits : List Char) : ofDigits digits = Nat.ofDigitChars 10 digits 0 := rfl

theorem ofDigits_append_zeros (digits : List Char) (k : ℕ) :
    ofDigits (digits ++ List.replicate k '0') = 10 ^ k * ofDigits digits := by
  rw [ofDigits_eq, ofDigits_eq, Nat.ofDigitChars_append, Nat.ofDigitChars_replicate_zero]

theorem ofDigits_zeros_append (k : ℕ) (digits : List Char) :
    ofDigits (List.replicate k '0' ++ digits) = ofDigits digits := by
  rw [ofDigits_eq, ofDigits_eq, Nat.ofDigitChars_append, Nat.ofDigitChars_replicate_zero,
    Nat.mul_zero]

theorem ofDigits_toDigits (n : ℕ) : ofDigits (Nat.toDigits 10 n) = n :=
  Nat.ofDigitChars_ten_toDigits

theorem toList_toString (k : ℤ) :
    (toString k).toList = signText (k < 0) ++ Nat.toDigits 10 k.natAbs := by
  cases k with
  | ofNat n =>
    have htext : toString (Int.ofNat n) = n.repr := rfl
    rw [htext, Nat.toList_repr]
    rfl
  | negSucc n =>
    have htext : toString (Int.negSucc n) = "-" ++ n.succ.repr := rfl
    have hneg : decide (Int.negSucc n < 0) = true := decide_eq_true (Int.negSucc_lt_zero n)
    rw [htext, String.toList_append, Nat.toList_repr, hneg]
    rfl

/-! ## The layout of the digits -/

/-- The number that a numeral stands for, without its sign. -/
def Numeral.size (n : Numeral) : ℚ := n.mantissa * 10 ^ n.exponent

/-- A numeral for a number, with digits ahead of the point and with a fraction or an
exponent. -/
structure Numeral.Writes (n : Numeral) (negative : Bool) (unsigned : List Char) (size : ℚ) :
    Prop where
  wellFormed : n.WellFormed
  negative : n.negative = negative
  ahead : n.ahead ≠ []
  closed : n.IsClosed
  text : n.unsignedText = unsigned
  size : n.size = size

section

variable {digits : List Char} (hall : AllDigits digits) (hne : digits ≠ []) (negative : Bool)
  {k : ℤ}
include hall hne

theorem writes_whole (hk : 0 ≤ k) :
    Numeral.Writes ⟨negative, digits ++ Layout.zeros k, some ['0'], none⟩ negative
      (digits ++ Layout.zeros k ++ ['.', '0']) (ofDigits digits * 10 ^ k) where
  wellFormed := ⟨hall.append (allDigits_zeros k), by simp [AllDigits], by simp, .inr rfl⟩
  negative := rfl
  ahead := List.append_ne_nil_of_left_ne_nil hne _
  closed := .inl rfl
  text := by simp [Numeral.unsignedText, Numeral.behindText, Numeral.powerText]
  size := by
    have hmantissa : ofDigits (digits ++ Layout.zeros k ++ ['0']) =
        10 ^ 1 * (10 ^ k.toNat * ofDigits digits) := by
      rw [← ofDigits_append_zeros, ← ofDigits_append_zeros]
      rfl
    have hpower : (10 : ℚ) ^ k.toNat = 10 ^ k := by
      rw [← zpow_natCast, Int.toNat_of_nonneg hk]
    simp only [Numeral.size, Numeral.mantissa, Numeral.exponent, Numeral.powerValue,
      Option.getD_some, hmantissa]
    push_cast
    rw [hpower]
    norm_num
    ring

/-- The point is among the digits. -/
theorem writes_point (hk : k < 0) (hpoint : 0 < digits.length + k) :
    Numeral.Writes ⟨negative, digits.take (digits.length + k).toNat,
        some (digits.drop (digits.length + k).toNat), none⟩ negative
      (digits.take (digits.length + k).toNat ++ '.' :: digits.drop (digits.length + k).toNat)
      (ofDigits digits * 10 ^ k) where
  wellFormed := by
    refine ⟨fun c hc => hall c (List.mem_of_mem_take hc), ?_, by simp, .inr rfl⟩
    intro behind hbehind
    rw [Option.mem_some_iff] at hbehind
    subst hbehind
    refine ⟨?_, fun c hc => hall c (List.mem_of_mem_drop hc)⟩
    rw [ne_eq, List.drop_eq_nil_iff]
    omega
  negative := rfl
  ahead := by
    rw [ne_eq, List.take_eq_nil_iff]
    rintro (hzero | hnil)
    · omega
    · exact hne hnil
  closed := .inl rfl
  text := by simp [Numeral.unsignedText, Numeral.behindText, Numeral.powerText]
  size := by
    have hexponent : (0 : ℤ) - (digits.drop (digits.length + k).toNat).length = k := by
      rw [List.length_drop]
      omega
    simp only [Numeral.size, Numeral.mantissa, Numeral.exponent, Numeral.powerValue,
      Option.getD_some, List.take_append_drop, hexponent]

/-- The point is in front of the digits. -/
theorem writes_behind (hpoint : (digits.length : ℤ) + k ≤ 0) :
    Numeral.Writes ⟨negative, ['0'], some (Layout.zeros (-(digits.length + k)) ++ digits), none⟩
      negative ('0' :: '.' :: Layout.zeros (-(digits.length + k)) ++ digits)
      (ofDigits digits * 10 ^ k) where
  wellFormed := by
    refine ⟨by simp [AllDigits], ?_, by simp, .inr rfl⟩
    intro behind hbehind
    rw [Option.mem_some_iff] at hbehind
    subst hbehind
    exact ⟨List.append_ne_nil_of_right_ne_nil _ hne, (allDigits_zeros _).append hall⟩
  negative := rfl
  ahead := List.cons_ne_nil _ _
  closed := .inl rfl
  text := by simp [Numeral.unsignedText, Numeral.behindText, Numeral.powerText]
  size := by
    have hmantissa : ofDigits ('0' :: (Layout.zeros (-(digits.length + k)) ++ digits)) =
        ofDigits digits := by
      rw [ofDigits_cons_zero]
      exact ofDigits_zeros_append _ _
    have hexponent : (0 : ℤ) - (Layout.zeros (-(digits.length + k)) ++ digits).length = k := by
      rw [List.length_append, Layout.zeros, List.length_replicate]
      omega
    simp only [Numeral.size, Numeral.mantissa, Numeral.exponent, Numeral.powerValue,
      Option.getD_some, List.singleton_append, hmantissa, hexponent]

end

/-- The sign and the digits of an exponent. -/
def powerParts (p : ℤ) : Bool × List Char := (p < 0, Nat.toDigits 10 p.natAbs)

theorem power_eq (p : ℤ) :
    Layout.double.power p = signText (powerParts p).1 ++ (powerParts p).2 := by
  rw [Layout.power, toList_toString]
  rfl

theorem powerValue_powerParts (negative : Bool) (ahead : List Char) (behind : Option (List Char))
    (p : ℤ) : Numeral.powerValue ⟨negative, ahead, behind, some (powerParts p)⟩ = p := by
  simp only [Numeral.powerValue, powerParts, ofDigits_toDigits, decide_eq_true_eq]
  split <;> omega

theorem writes_single {c : Char} (hc : c.isDigit = true) (negative : Bool) (k : ℤ) :
    Numeral.Writes ⟨negative, [c], none, some (powerParts k)⟩ negative
      (c :: 'e' :: Layout.double.power k) (ofDigits [c] * 10 ^ k) where
  wellFormed := by
    refine ⟨by simpa [AllDigits] using hc, by simp, ?_, .inl (List.cons_ne_nil _ _)⟩
    intro p hp
    rw [Option.mem_some_iff] at hp
    subst hp
    exact ⟨Nat.toDigits_ne_nil, allDigits_toDigits _⟩
  negative := rfl
  ahead := List.cons_ne_nil _ _
  closed := .inr rfl
  text := by simp [Numeral.unsignedText, Numeral.behindText, Numeral.powerText, power_eq]
  size := by
    simp only [Numeral.size, Numeral.exponent, powerValue_powerParts]
    simp [Numeral.mantissa]

theorem writes_power {c : Char} {cs : List Char} (hall : AllDigits (c :: cs)) (hne : cs ≠ [])
    (negative : Bool) (k : ℤ) :
    Numeral.Writes ⟨negative, [c], some cs, some (powerParts ((c :: cs).length + k - 1))⟩ negative
      (c :: '.' :: cs ++ 'e' :: Layout.double.power ((c :: cs).length + k - 1))
      (ofDigits (c :: cs) * 10 ^ k) where
  wellFormed := by
    refine ⟨fun d hd => hall d (by simp_all), ?_, ?_, .inl (List.cons_ne_nil _ _)⟩
    · intro behind hbehind
      rw [Option.mem_some_iff] at hbehind
      subst hbehind
      exact ⟨hne, fun d hd => hall d (List.mem_cons_of_mem _ hd)⟩
    · intro p hp
      rw [Option.mem_some_iff] at hp
      subst hp
      exact ⟨Nat.toDigits_ne_nil, allDigits_toDigits _⟩
  negative := rfl
  ahead := List.cons_ne_nil _ _
  closed := .inr rfl
  text := by simp [Numeral.unsignedText, Numeral.behindText, Numeral.powerText, power_eq]
  size := by
    have hexponent : ((c :: cs).length + k - 1 : ℤ) - cs.length = k := by
      rw [List.length_cons]
      omega
    simp only [Numeral.size, Numeral.exponent, powerValue_powerParts, Option.getD_some, hexponent]
    rfl

/-- Every layout of the digits of a number is a numeral for it. -/
theorem exists_writes_positive (negative : Bool) (d : Digits) :
    ∃ n : Numeral, n.Writes negative (Layout.double.positive d) d.value := by
  have hall := allDigits_toDigits d.digits
  have hne : Nat.toDigits 10 d.digits ≠ [] := Nat.toDigits_ne_nil
  have hvalue : d.value = ofDigits (Nat.toDigits 10 d.digits) * 10 ^ d.exponent := by
    rw [ofDigits_toDigits]
    rfl
  rw [hvalue, Layout.positive]
  generalize Nat.toDigits 10 d.digits = digits at hall hne
  simp only
  split
  · next hwhole => exact ⟨_, writes_whole hall hne negative hwhole.1⟩
  · next hwhole =>
    split
    · next hpoint =>
      have hneg : d.exponent < 0 := by
        by_contra hle
        exact hwhole ⟨by omega, hpoint.2⟩
      exact ⟨_, writes_point hall hne negative hneg hpoint.1⟩
    · split
      · next hbehind => exact ⟨_, writes_behind hall hne negative hbehind.2⟩
      · cases digits with
        | nil => exact absurd rfl hne
        | cons c cs =>
          cases cs with
          | nil =>
            have hplace : (([c] : List Char).length : ℤ) + d.exponent - 1 = d.exponent := by
              rw [List.length_singleton]
              omega
            rw [hplace]
            exact ⟨_, writes_single (hall c List.mem_cons_self) negative d.exponent⟩
          | cons e es => exact ⟨_, writes_power hall (List.cons_ne_nil _ _) negative d.exponent⟩

/-! ## Leaving out `.0` -/

theorem not_pointZero_suffix {s t : List Char} {c : Char} (hne : t ≠ []) (hpoint : '.' ∉ t) :
    ¬ ['.', '0'] <:+ s ++ (t ++ [c]) := by
  obtain ⟨u, d, rfl⟩ : ∃ u d, t = u ++ [d] := ⟨_, _, (List.dropLast_concat_getLast hne).symm⟩
  rintro ⟨front, heq⟩
  have hshape : front ++ ['.', '0'] = (s ++ u) ++ [d, c] := by
    rw [heq]
    simp
  have hlast := (List.append_inj' hshape rfl).2
  rw [List.cons.injEq] at hlast
  exact hpoint (by simp [← hlast.1])

theorem point_notMem {s : List Char} (h : AllDigits s) : '.' ∉ s :=
  fun hmem => absurd (h _ hmem) (by decide)

theorem point_notMem_signText (negative : Bool) : '.' ∉ signText negative := by
  cases negative <;> decide

variable {n : Numeral} {unsigned : List Char} {size : ℚ}

/-- A numeral ends in `.0` only where `0` is all that is behind its point. -/
theorem Numeral.WellFormed.of_pointZero (h : n.WellFormed) (hs : ['.', '0'] <:+ n.text) :
    n.behind = some ['0'] ∧ n.power = none := by
  rw [Numeral.text, Numeral.unsignedText] at hs
  cases hp : n.power with
  | some p =>
    obtain ⟨negative, digits⟩ := p
    obtain ⟨hne, hall⟩ := h.power _ hp
    obtain ⟨ds, d, rfl⟩ : ∃ ds d, digits = ds ++ [d] :=
      ⟨_, _, (List.dropLast_concat_getLast hne).symm⟩
    have hds : AllDigits ds := fun c hc => hall c (by simp [hc])
    have hshape : signText n.negative ++ (n.ahead ++ (n.behindText ++ n.powerText)) =
        (signText n.negative ++ (n.ahead ++ n.behindText)) ++
          (('e' :: (signText negative ++ ds)) ++ [d]) := by
      simp [Numeral.powerText, hp]
    have hpoint : '.' ∉ 'e' :: (signText negative ++ ds) := by
      simp [point_notMem hds, point_notMem_signText]
    rw [hshape] at hs
    exact absurd hs (not_pointZero_suffix (List.cons_ne_nil _ _) hpoint)
  | none =>
    refine ⟨?_, rfl⟩
    have hpower : n.powerText = [] := by rw [Numeral.powerText, hp]
    rw [hpower, List.append_nil] at hs
    cases hb : n.behind with
    | none =>
      have hbehind : n.behindText = [] := by rw [Numeral.behindText, hb]
      rw [hbehind, List.append_nil] at hs
      have hmem : '.' ∈ signText n.negative ++ n.ahead := hs.subset (by simp)
      rcases List.mem_append.1 hmem with hmem | hmem
      · exact absurd hmem (point_notMem_signText _)
      · exact absurd hmem (point_notMem h.ahead)
    | some digits =>
      obtain ⟨hne, hall⟩ := h.behind _ hb
      obtain ⟨ds, d, rfl⟩ : ∃ ds d, digits = ds ++ [d] :=
        ⟨_, _, (List.dropLast_concat_getLast hne).symm⟩
      have hds : AllDigits ds := fun c hc => hall c (by simp [hc])
      have hbehind : n.behindText = '.' :: (ds ++ [d]) := by rw [Numeral.behindText, hb]
      rw [hbehind] at hs
      by_cases hnil : ds = []
      · subst hnil
        obtain ⟨front, heq⟩ := hs
        have hshape : front ++ ['.', '0'] = (signText n.negative ++ n.ahead) ++ ['.', d] := by
          rw [heq]
          simp
        have hlast := (List.append_inj' hshape rfl).2
        simp only [List.cons.injEq, and_true, true_and] at hlast
        rw [← hlast]
        rfl
      · have hshape : signText n.negative ++ (n.ahead ++ '.' :: (ds ++ [d])) =
            (signText n.negative ++ (n.ahead ++ ['.'])) ++ (ds ++ [d]) := by
          simp
        rw [hshape] at hs
        exact absurd hs (not_pointZero_suffix hnil (point_notMem hds))

/-- The numeral without its fraction and exponent. -/
def Numeral.whole (n : Numeral) : Numeral := ⟨n.negative, n.ahead, none, none⟩

/-- Without `.0` a numeral stands for the same number, which is an integer. -/
theorem Numeral.Writes.exists_plain (h : n.Writes negative unsigned size) :
    ∃ n' : Numeral, n'.WellFormed ∧ n'.negative = negative ∧ n'.size = size ∧
      n'.text = (if ['.', '0'].isSuffixOf n.text then n.text.dropLast.dropLast else n.text) ∧
      (n'.IsClosed ∨ ∃ k : ℕ, size = k) := by
  split
  · next hsuffix =>
    obtain ⟨hbehind, hpower⟩ := h.wellFormed.of_pointZero (List.isSuffixOf_iff_suffix.1 hsuffix)
    have htext : n.text = n.whole.text ++ ['.', '0'] := by
      simp [Numeral.text, Numeral.unsignedText, Numeral.behindText, Numeral.powerText, hbehind,
        hpower, Numeral.whole]
    have hsize : n.whole.size = size := by
      have hmantissa : ofDigits (n.ahead ++ ['0']) = 10 ^ 1 * ofDigits n.ahead :=
        ofDigits_append_zeros n.ahead 1
      rw [← h.size]
      simp [Numeral.size, Numeral.mantissa, Numeral.exponent, Numeral.powerValue, Numeral.whole,
        hbehind, hpower, hmantissa]
      norm_num
      ring
    refine ⟨n.whole, ⟨h.wellFormed.ahead, by simp [Numeral.whole], by simp [Numeral.whole],
      .inl h.ahead⟩, h.negative, hsize, ?_, .inr ⟨n.whole.mantissa, ?_⟩⟩
    · rw [htext]
      simp
    · rw [← hsize]
      simp [Numeral.size, Numeral.exponent, Numeral.powerValue, Numeral.whole]
  · exact ⟨n, h.wellFormed, h.negative, h.size, rfl, .inl h.closed⟩

/-! ## Doubles -/

/-- A double is not changed by fitting it into the format of doubles. -/
theorem fit_double (h : IsDouble mantissa exponent) (hne : mantissa ≠ 0) (negative : Bool) :
    (Binary.finite negative mantissa exponent).fit Width.double =
      .finite negative mantissa exponent := by
  obtain ⟨hlt, hleast, hmost, hfull⟩ := h
  have hlog : mantissa.log2 < 53 := (Nat.log2_lt hne).2 hlt
  have hplace : max (exponent + Binary.bitCount mantissa - Width.double.precision)
      Width.double.least = exponent := by
    have hbits : Binary.bitCount mantissa = mantissa.log2 + 1 := if_neg hne
    have hprecision : Width.double.precision = 53 := rfl
    have hwidth : Width.double.least = -1074 := rfl
    rw [hbits, hprecision, hwidth]
    rcases hfull with hfull | hfull
    · have := (Nat.le_log2 hne).2 hfull
      omega
    · omega
  have hrounded : mantissa * powerOfTwo (exponent - exponent).toNat = mantissa := by
    rw [Int.sub_self]
    exact Nat.mul_one mantissa
  have hcarried : ¬ mantissa = powerOfTwo Width.double.precision := hlt.ne
  have hlast : ¬ Width.double.most < exponent := not_lt.2 hmost
  simp only [Binary.fit, hne, if_false, hplace, le_refl, if_true, hrounded, hcarried, decide_false,
    Bool.false_eq_true, hlast]

section

variable (hx : Binary.ofFloat x = .finite negative mantissa exponent) (hne : mantissa ≠ 0)
include hx hne

theorem exists_writes_write :
    ∃ (n : Numeral) (unsigned : List Char) (size : ℚ), n.Writes negative unsigned size ∧
      write x = n.text ∧ RoundsTo size mantissa exponent := by
  obtain ⟨hdouble, -⟩ := ofFloat_finite hx
  obtain ⟨n, hn⟩ := exists_writes_positive negative (shortest Width.double .even mantissa exponent)
  refine ⟨n, _, _, hn, ?_, roundsTo_shortest .even hdouble hne⟩
  rw [write, Layout.write, hx, fit_double hdouble hne, Numeral.text, hn.negative, hn.text]
  simp only [hne, if_false]
  rfl

/-- A numeral within the reach of a double has the double as its value. -/
theorem value_of_roundsTo (hn : RoundsTo n.size mantissa exponent)
    (hnegative : n.negative = negative) : n.value = x := by
  obtain ⟨hdouble, -⟩ := ofFloat_finite hx
  rw [Numeral.value, scientific_of_roundsTo hdouble hne hn, hnegative, ← toFloat_of_ofFloat hx]
  cases negative with
  | false => rfl
  | true => exact neg_eq (ofFloat_toFloat hdouble false)

end

/-- A double that an integer rounds to is an integer. -/
theorem isWhole_of_roundsTo {k : ℕ} (hk : RoundsTo k mantissa exponent) (negative : Bool) :
    (Binary.finite negative mantissa exponent).isWhole = true := by
  rw [Binary.isWhole, Bool.or_eq_true, decide_eq_true_eq, beq_iff_eq]
  rcases Int.lt_or_le exponent 0 with hneg | hnonneg
  · right
    have hunit := two_zpow_pos exponent
    have hreach := reachBelow_le mantissa exponent
    have hscale : (2 : ℚ) ^ exponent * 2 ^ (-exponent).toNat = 1 := by
      rw [zpow_mul_pow_toNat two_ne_zero]
      have hzero : exponent.toNat = 0 := by omega
      rw [hzero, pow_zero]
    have hpower : (0 : ℚ) < 2 ^ (-exponent).toNat := by positivity
    have hlow : (mantissa : ℚ) - 1 / 2 ≤ k * 2 ^ (-exponent).toNat := by
      calc (mantissa : ℚ) - 1 / 2 ≤ mantissa - reachBelow mantissa exponent := by linarith
        _ = (mantissa - reachBelow mantissa exponent) * 2 ^ exponent * 2 ^ (-exponent).toNat := by
          rw [mul_assoc, hscale, mul_one]
        _ ≤ k * 2 ^ (-exponent).toNat := mul_le_mul_of_nonneg_right hk.low hpower.le
    have hhigh : (k : ℚ) * 2 ^ (-exponent).toNat ≤ mantissa + 1 / 2 := by
      calc (k : ℚ) * 2 ^ (-exponent).toNat
          ≤ (mantissa + 1 / 2) * 2 ^ exponent * 2 ^ (-exponent).toNat :=
            mul_le_mul_of_nonneg_right hk.high hpower.le
        _ = mantissa + 1 / 2 := by rw [mul_assoc, hscale, mul_one]
    have hbelow : (mantissa : ℚ) < (k * 2 ^ (-exponent).toNat + 1 : ℕ) := by
      push_cast
      linarith
    have habove : ((k * 2 ^ (-exponent).toNat : ℕ) : ℚ) < (mantissa + 1 : ℕ) := by
      push_cast
      linarith
    have hbelow' : mantissa < k * 2 ^ (-exponent).toNat + 1 := by exact_mod_cast hbelow
    have habove' : k * 2 ^ (-exponent).toNat < mantissa + 1 := by exact_mod_cast habove
    have heq : mantissa = k * 2 ^ (-exponent).toNat := by omega
    rw [powerOfTwo, Nat.pow_eq, heq, Nat.mul_mod_left]
  · exact .inl hnonneg

/-- The plain text of a finite number is a numeral for it. -/
theorem exists_numeral_plain (h : x.isFinite = true) :
    ∃ n : Numeral, n.Denotes x ∧ plain x = n.text := by
  obtain ⟨negative, mantissa, exponent, hx⟩ := exists_ofFloat_of_isFinite h
  obtain ⟨hdouble, -⟩ := ofFloat_finite hx
  have hzero := beq_zero_iff hx
  rw [plain]
  by_cases hne : mantissa = 0
  · rw [if_pos (hzero.2 hne)]
    subst hne
    have hfraction : hasFraction x = false := by
      rw [hasFraction, hx, Binary.isWhole, Nat.zero_mod]
      simp
    have hvalue : Numeral.value ⟨false, ['0'], none, none⟩ = 0.0 := by
      simp [Numeral.value, Numeral.mantissa, ofDigits, scientific]
    refine ⟨⟨false, ['0'], none, none⟩, ⟨⟨by simp [AllDigits], by simp, by simp,
      .inl (List.cons_ne_nil _ _)⟩, ?_, ?_, ?_⟩, rfl⟩
    · exact fun hlt => absurd rfl (negative_of_lt_zero hx hlt).2
    · rw [hfraction]
      exact fun hf => absurd hf Bool.false_ne_true
    · rw [hvalue]
      exact zero_beq hx
  · rw [if_neg (fun heq => hne (hzero.1 heq))]
    obtain ⟨n, unsigned, size, hn, hwrite, hreach⟩ := exists_writes_write hx hne
    obtain ⟨m, hwell, hnegative, hsize, htext, hclosed⟩ := hn.exists_plain
    refine ⟨m, ⟨hwell, ?_, ?_, ?_⟩, ?_⟩
    · intro hlt
      rw [hnegative, (negative_of_lt_zero hx hlt).1]
    · intro hfraction
      refine hclosed.resolve_right ?_
      rintro ⟨k, hk⟩
      rw [hk] at hreach
      rw [hasFraction, hx, isWhole_of_roundsTo hreach] at hfraction
      cases hfraction
    · rw [value_of_roundsTo hx hne (hsize ▸ hreach) hnegative]
      exact beq_self_of_finite hx
    · rw [htext, hwrite]

/-- What is written for a finite number reads back as that number, with its sign. -/
theorem read?_write (h : x.isFinite = true) : read? (write x) = some x := by
  obtain ⟨negative, mantissa, exponent, hx⟩ := exists_ofFloat_of_isFinite h
  by_cases hne : mantissa = 0
  · subst hne
    have hleast : exponent = -1074 := (ofFloat_finite hx).1.full.resolve_left (by decide)
    have hwrite : write x = signText negative ++ ['0', '.', '0'] := by
      rw [write, Layout.write, hx]
      rfl
    rw [hwrite, ← toFloat_of_ofFloat hx, hleast]
    cases negative with
    | false => exact congrArg some (toFloat_of_ofFloat ofFloat_zero).symm
    | true => exact congrArg some (neg_eq ofFloat_zero)
  · obtain ⟨n, unsigned, size, hn, hwrite, hreach⟩ := exists_writes_write hx hne
    rw [hwrite, Numeral.read?_text hn.wellFormed,
      value_of_roundsTo hx hne (hn.size ▸ hreach) hn.negative]

end Decimal
end SvgCompact
