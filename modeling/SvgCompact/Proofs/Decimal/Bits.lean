import Mathlib
import SvgCompact.Decimal.Binary

/-!
The bits of doubles.

The arithmetic on doubles takes their bits apart and puts them together again.  Both
agree with `Binary.ofFloat`, and its parts determine a finite number.
-/

namespace SvgCompact
namespace Decimal
open Float.Model Float.Model.UnpackedFloat

section
variable (b : BitVec Format.binary64.numBits)

theorem toNat_unpackMantissa : (@unpackMantissa Format.binary64 b).toNat = b.toNat % 2 ^ 52 := by
  simp [unpackMantissa, BitVec.extractLsb, BitVec.extractLsb']

theorem toNat_unpackExponent :
    (@unpackExponent Format.binary64 b).toNat = b.toNat / 2 ^ 52 % 2 ^ 11 := by
  simp [unpackExponent, BitVec.extractLsb, BitVec.extractLsb', Nat.shiftRight_eq_div_pow]

theorem toNat_unpackSign :
    (@unpackSign Format.binary64 b).toNat = b.toNat / 2 ^ 63 % 2 := by
  simp [unpackSign, BitVec.extractLsb, BitVec.extractLsb', Nat.shiftRight_eq_div_pow]
end

def signOf (negative : Bool) : Sign := if negative then .negative else .positive

/-- The number as the operations on floating point numbers see it. -/
def Binary.unpacked : Binary → UnpackedFloat
  | nan => .notANumber
  | infinite negative => .infinity (signOf negative)
  | finite negative mantissa exponent =>
    if h : mantissa = 0 then .zero (signOf negative)
    else .finite (signOf negative) mantissa exponent (Nat.pos_of_ne_zero h)

theorem toNat_toBits_lt (x : Float) : x.toBits.toNat < 2 ^ 64 := x.toBits.toNat_lt

theorem ofBitVec_unpackSign (x : Float) :
    Sign.ofBitVec (@unpackSign Format.binary64 x.toModel.toBits.toBitVec) =
      signOf (x.toBits.toNat / 2 ^ 63 == 1) := by
  have hlt := toNat_toBits_lt x
  have hsign := toNat_unpackSign x.toModel.toBits.toBitVec
  have htwo : x.toBits.toNat / 2 ^ 63 % 2 = x.toBits.toNat / 2 ^ 63 := by omega
  have hN : x.toModel.toBits.toBitVec.toNat = x.toBits.toNat := rfl
  rw [hN, htwo] at hsign
  simp only [Sign.ofBitVec, signOf, ← BitVec.toNat_inj, hsign]
  have htop : x.toBits.toNat / 2 ^ 63 = 0 ∨ x.toBits.toNat / 2 ^ 63 = 1 := by omega
  rcases htop with htop | htop <;> rw [htop] <;> rfl

theorem toNat_one_append (m : BitVec 52) : (1#1 ++ m).toNat = 2 ^ 52 + m.toNat := by
  rw [BitVec.toNat_append, ← Nat.shiftLeft_add_eq_or_of_lt m.isLt]
  rfl

theorem unpack_toModel (x : Float) : x.toModel.unpack = (Binary.ofFloat x).unpacked := by
  have hsign := ofBitVec_unpackSign x
  have hmantissa := toNat_unpackMantissa x.toModel.toBits.toBitVec
  have hexponent := toNat_unpackExponent x.toModel.toBits.toBitVec
  have hN : x.toModel.toBits.toBitVec.toNat = x.toBits.toNat := rfl
  have hones : (-1#11 : BitVec 11).toNat = 2047 := by decide
  have hbias : ((Format.binary64.exponentBias : Int) + (52 : Nat)) = 1075 := by decide
  rw [hN] at hmantissa hexponent
  rw [Float.Model.unpack, UnpackedFloat.unpack, Binary.ofFloat]
  simp only [hsign, ← BitVec.toNat_inj, hmantissa, hexponent, powerOfTwo, Nat.pow_eq,
    toNat_one_append, hones, hbias, BitVec.toNat_ofNat, Nat.zero_mod, beq_iff_eq]
  generalize x.toBits.toNat / 2 ^ 52 % 2 ^ 11 = biased
  by_cases htop : biased = 2047
  · rw [if_pos htop, if_pos htop]
    split <;> rfl
  · rw [if_neg htop, if_neg htop]
    by_cases hbottom : biased = 0
    · rw [if_pos hbottom, if_pos hbottom, Binary.unpacked]
      split
      · rfl
      · subst hbottom
        rfl
    · rw [if_neg hbottom, if_neg hbottom, Binary.unpacked, dif_neg (by omega)]

/-! ## Bits and back -/

/-- What the mantissas and exponents of doubles keep to. -/
structure IsDouble (mantissa : Nat) (exponent : Int) : Prop where
  lt : mantissa < 2 ^ 53
  least : -1074 ≤ exponent
  most : exponent ≤ 971
  full : 2 ^ 52 ≤ mantissa ∨ exponent = -1074

/-- The bits of a double. -/
def bitsOf (negative : Bool) (mantissa : Nat) (exponent : Int) : Nat :=
  (if negative then 2 ^ 63 else 0) + (exponent + 1074).toNat * 2 ^ 52 + mantissa

variable {x : Float} {negative : Bool} {mantissa : Nat} {exponent : Int}

theorem topBit {n : Nat} (h : n < 2 ^ 64) :
    (if (n / 2 ^ 63 == 1) = true then 2 ^ 63 else 0) = n / 2 ^ 63 * 2 ^ 63 := by
  have hbit : n / 2 ^ 63 = 0 ∨ n / 2 ^ 63 = 1 := by omega
  rcases hbit with hbit | hbit <;> rw [hbit] <;> rfl

theorem ofFloat_finite (h : Binary.ofFloat x = .finite negative mantissa exponent) :
    IsDouble mantissa exponent ∧ x.toBits.toNat = bitsOf negative mantissa exponent := by
  have hlt := toNat_toBits_lt x
  rw [Binary.ofFloat] at h
  simp only [powerOfTwo, Nat.pow_eq, beq_iff_eq] at h
  split at h
  · split at h <;> cases h
  · have hparts : x.toBits.toNat = x.toBits.toNat / 2 ^ 63 * 2 ^ 63 +
        x.toBits.toNat / 2 ^ 52 % 2 ^ 11 * 2 ^ 52 + x.toBits.toNat % 2 ^ 52 := by omega
    split at h
    · next hbiased =>
      cases h
      have hplace : ((-1074 : Int) + 1074).toNat = 0 := rfl
      rw [hbiased] at hparts
      refine ⟨⟨by omega, by omega, by omega, .inr rfl⟩, ?_⟩
      rw [bitsOf, topBit hlt, hplace]
      exact hparts
    · next hbiased =>
      cases h
      have hplace : ((x.toBits.toNat / 2 ^ 52 % 2 ^ 11 : Nat) - 1075 + 1074 : Int).toNat + 1 =
          x.toBits.toNat / 2 ^ 52 % 2 ^ 11 := by omega
      rw [← hplace, Nat.add_mul, Nat.one_mul, ← Nat.add_assoc] at hparts
      refine ⟨⟨by omega, by omega, by omega, .inl (by omega)⟩, ?_⟩
      rw [bitsOf, topBit hlt, ← Nat.add_assoc]
      exact hparts

theorem toNat_toBitVec_signOf (negative : Bool) :
    (signOf negative).toBitVec.toNat * 2 ^ 63 = if negative then 2 ^ 63 else 0 := by
  cases negative <;> rfl

theorem toNat_packComponents (s : Sign) (e : BitVec 11) (m : BitVec 52) :
    (packComponents Format.binary64 s e m).toNat =
      s.toBitVec.toNat * 2 ^ 63 + e.toNat * 2 ^ 52 + m.toNat := by
  simp only [packComponents]
  rw [BitVec.toNat_append, BitVec.toNat_append, ← Nat.shiftLeft_add_eq_or_of_lt m.isLt,
    ← Nat.shiftLeft_add_eq_or_of_lt e.isLt]
  simp only [Nat.shiftLeft_eq]
  omega

theorem toNat_pack (h : IsDouble mantissa exponent) (negative : Bool) :
    (UnpackedFloat.pack Format.binary64 (Binary.finite negative mantissa exponent).unpacked).toNat =
      bitsOf negative mantissa exponent := by
  obtain ⟨hlt, hleast, hmost, hfull⟩ := h
  rw [Binary.unpacked, bitsOf]
  split
  · next hzero =>
    have hexponent : (exponent + 1074).toNat = 0 := by omega
    rw [UnpackedFloat.pack, packedZero, toNat_packComponents, toNat_toBitVec_signOf, hexponent,
      hzero]
    rfl
  · next hpos =>
    have hbias : (exponent + (Format.binary64.exponentBias : Int) + (52 : Nat)).toNat =
        (exponent + 1075).toNat := by
      have h1075 : exponent + (Format.binary64.exponentBias : Int) + (52 : Nat) =
          exponent + 1075 := by
        have hb : (Format.binary64.exponentBias : Int) = 1023 := by decide
        omega
      rw [h1075]
    simp only [UnpackedFloat.pack, hbias]
    rw [if_neg (by omega)]
    have hbits : Format.binary64.mantissaBits = 53 := by decide
    rw [hbits]
    by_cases hnormal : 2 ^ 52 ≤ mantissa
    · have hlog : mantissa.log2 + 1 = 53 := by
        rw [(Nat.log2_eq_iff hpos).2 ⟨hnormal, hlt⟩]
      rw [if_pos hlog, toNat_packComponents, toNat_toBitVec_signOf, BitVec.toNat_ofNat,
        BitVec.toNat_ofNat]
      omega
    · have hlog : mantissa.log2 + 1 ≠ 53 := by
        have := (Nat.log2_lt hpos).2 (Nat.lt_of_not_le hnormal)
        omega
      rw [if_neg hlog, toNat_packComponents, toNat_toBitVec_signOf, BitVec.toNat_ofNat,
        BitVec.toNat_ofNat]
      omega

theorem float_eq_of_toBits {x y : Float} (h : x.toBits = y.toBits) : x = y := by
  obtain ⟨⟨a, ha⟩⟩ := x
  obtain ⟨⟨b, hb⟩⟩ := y
  cases show a = b from h
  rfl

/-- The double with given parts. -/
def Binary.toFloat (b : Binary) : Float :=
  Float.ofModel (Float.Model.pack b.unpacked)

theorem toFloat_of_ofFloat (h : Binary.ofFloat x = .finite negative mantissa exponent) :
    (Binary.finite negative mantissa exponent).toFloat = x := by
  obtain ⟨hdouble, hbits⟩ := ofFloat_finite h
  apply float_eq_of_toBits
  rw [← UInt64.toNat_inj]
  exact (toNat_pack hdouble negative).trans hbits.symm

theorem ofFloat_toFloat (h : IsDouble mantissa exponent) (negative : Bool) :
    Binary.ofFloat (Binary.finite negative mantissa exponent).toFloat =
      .finite negative mantissa exponent := by
  have hbits : (Binary.finite negative mantissa exponent).toFloat.toBits.toNat =
      bitsOf negative mantissa exponent := toNat_pack h negative
  obtain ⟨hlt, hleast, hmost, hfull⟩ := h
  obtain ⟨place, hplace⟩ : ∃ place, (exponent + 1074).toNat = place := ⟨_, rfl⟩
  have hbound : place < 2 ^ 11 - 2 := by omega
  have hsign : bitsOf negative mantissa exponent / 2 ^ 63 = if negative then 1 else 0 := by
    rw [bitsOf, hplace]
    cases negative <;> simp only [Bool.false_eq_true, if_true, if_false] <;> omega
  have hfraction : bitsOf negative mantissa exponent % 2 ^ 52 = mantissa % 2 ^ 52 := by
    rw [bitsOf, hplace]
    cases negative <;> simp only [Bool.false_eq_true, if_true, if_false] <;> omega
  have hbiased : bitsOf negative mantissa exponent / 2 ^ 52 % 2 ^ 11 =
      place + mantissa / 2 ^ 52 := by
    rw [bitsOf, hplace]
    cases negative <;> simp only [Bool.false_eq_true, if_true, if_false] <;> omega
  have hnegative : ((if negative = true then 1 else 0) == 1) = negative := by
    cases negative <;> rfl
  rw [Binary.ofFloat]
  simp only [powerOfTwo, Nat.pow_eq, hbits, hsign, hfraction, hbiased, beq_iff_eq, hnegative]
  rw [if_neg (by omega)]
  by_cases hnormal : 2 ^ 52 ≤ mantissa
  · have hmantissa : 2 ^ 52 + mantissa % 2 ^ 52 = mantissa := by omega
    have hexponent : ((place + mantissa / 2 ^ 52 : Nat) : Int) - 1075 = exponent := by omega
    rw [if_neg (by omega), hmantissa, hexponent]
  · have hmantissa : mantissa % 2 ^ 52 = mantissa := by omega
    have hexponent : exponent = -1074 := hfull.resolve_left hnormal
    rw [if_pos (by omega), hmantissa, hexponent]

/-! ## Comparing -/

theorem exists_ofFloat_of_isFinite (h : x.isFinite = true) :
    ∃ negative mantissa exponent, Binary.ofFloat x = .finite negative mantissa exponent := by
  have hunpacked : x.toModel.unpack.isFinite = true := h
  rw [unpack_toModel] at hunpacked
  cases hx : Binary.ofFloat x with
  | nan => rw [hx] at hunpacked; exact absurd hunpacked (by decide)
  | infinite negative => rw [hx] at hunpacked; cases negative <;> exact absurd hunpacked (by decide)
  | finite negative mantissa exponent => exact ⟨_, _, _, rfl⟩

theorem ofFloat_zero : Binary.ofFloat 0.0 = .finite false 0 (-1074) := by
  rfl

theorem unpack_zero : (0.0 : Float).toModel.unpack = .zero .positive := by
  rw [unpack_toModel, ofFloat_zero]
  rfl

theorem neg_eq (h : Binary.ofFloat x = .finite negative mantissa exponent) :
    -x = (Binary.finite (!negative) mantissa exponent).toFloat := by
  have hneg : -x = Float.ofModel (Float.Model.pack x.toModel.unpack.neg) := rfl
  rw [hneg, unpack_toModel, h, Binary.toFloat, Binary.unpacked, Binary.unpacked]
  split <;> cases negative <;> rfl

theorem negative_of_lt_zero (h : Binary.ofFloat x = .finite negative mantissa exponent)
    (hlt : x < 0.0) : negative = true ∧ mantissa ≠ 0 := by
  have hless : x.lt 0.0 = true := hlt
  have hmodel : x.toModel.unpack.lt (0.0 : Float).toModel.unpack = true := of_decide_eq_true hless
  rw [unpack_toModel, h, unpack_zero, Binary.unpacked] at hmodel
  split at hmodel
  · exact absurd hmodel (by simp [UnpackedFloat.lt, UnpackedFloat.compare])
  · next hpos =>
    cases negative with
    | true => exact ⟨rfl, hpos⟩
    | false => exact absurd hmodel (by simp [signOf, UnpackedFloat.lt, UnpackedFloat.compare])

theorem beq_zero_iff (h : Binary.ofFloat x = .finite negative mantissa exponent) :
    (x == 0.0) = true ↔ mantissa = 0 := by
  have hmodel : (x == 0.0) = x.toModel.unpack.beq (0.0 : Float).toModel.unpack := rfl
  rw [hmodel, unpack_toModel, h, unpack_zero, Binary.unpacked]
  split
  · next hzero => simp [UnpackedFloat.beq, UnpackedFloat.compare, hzero]
  · next hpos => cases negative <;> simp [signOf, UnpackedFloat.beq, UnpackedFloat.compare, hpos]

theorem zero_beq (h : Binary.ofFloat x = .finite negative 0 exponent) : (0.0 == x) = true := by
  have hmodel : (0.0 == x) = (0.0 : Float).toModel.unpack.beq x.toModel.unpack := rfl
  rw [hmodel, unpack_toModel x, h, unpack_zero]
  simp [Binary.unpacked, UnpackedFloat.beq, UnpackedFloat.compare]

theorem beq_self_of_finite (h : Binary.ofFloat x = .finite negative mantissa exponent) :
    (x == x) = true := by
  have hmodel : (x == x) = x.toModel.unpack.beq x.toModel.unpack := rfl
  rw [hmodel, unpack_toModel, h, Binary.unpacked]
  split
  · simp [UnpackedFloat.beq, UnpackedFloat.compare]
  · cases negative <;> simp [signOf, UnpackedFloat.beq, UnpackedFloat.compare]

end Decimal

/-! ## Zeros without their sign

Both zeros are written alike, so a number that is read back is the same but for the sign
of a zero.  A sum depends on that sign in the sign of a zero only. -/

namespace Double

open Float.Model Float.Model.UnpackedFloat
open Decimal

variable {x y z : Float}

/-- A number with minus zero read as zero. -/
def unsigned (x : Float) : Float :=
  if x == 0.0 then 0.0 else x

theorem unsigned_of_zero (h : (x == 0.0) = true) : unsigned x = 0.0 := if_pos h

theorem unsigned_of_not_zero (h : ¬ (x == 0.0) = true) : unsigned x = x := if_neg h

theorem zero_beq_zero : ((0.0 : Float) == 0.0) = true := by decide

/-- The zeros are those numbers that are equal to zero. -/
theorem beq_zero_iff_unpack :
    (x == 0.0) = true ↔ ∃ s, x.toModel.unpack = .zero s := by
  have hmodel : (x == 0.0) = x.toModel.unpack.beq (0.0 : Float).toModel.unpack := rfl
  rw [hmodel, unpack_zero]
  cases x.toModel.unpack with
  | notANumber => simp [UnpackedFloat.beq, UnpackedFloat.compare]
  | infinity s => cases s <;> simp [UnpackedFloat.beq, UnpackedFloat.compare]
  | zero s => simp [UnpackedFloat.beq, UnpackedFloat.compare]
  | finite s m e hm => cases s <;> simp [UnpackedFloat.beq, UnpackedFloat.compare]

/-! ## Equal numbers -/

theorem beq_iff_unpack : (x == y) = true ↔
    x.toModel.unpack.compare y.toModel.unpack = some .eq := by
  have hmodel : (x == y) = x.toModel.unpack.beq y.toModel.unpack := rfl
  rw [hmodel, UnpackedFloat.beq, beq_iff_eq]

/-- A number that is equal to a finite one has its parts, or both are zeros. -/
theorem ofFloat_of_beq {negative : Bool} {mantissa : Nat} {exponent : Int}
    (hx : Binary.ofFloat x = .finite negative mantissa exponent) (h : (y == x) = true) :
    Binary.ofFloat y = .finite negative mantissa exponent ∨
      mantissa = 0 ∧ ∃ n e, Binary.ofFloat y = .finite n 0 e := by
  have hcompare := beq_iff_unpack.1 h
  rw [unpack_toModel, unpack_toModel, hx] at hcompare
  cases hy : Binary.ofFloat y with
  | nan =>
    rw [hy] at hcompare
    simp [Binary.unpacked, UnpackedFloat.compare] at hcompare
  | infinite n =>
    rw [hy] at hcompare
    simp only [Binary.unpacked] at hcompare
    split at hcompare <;> cases n <;> simp [signOf, UnpackedFloat.compare] at hcompare
  | finite n m e =>
    rw [hy] at hcompare
    simp only [Binary.unpacked] at hcompare
    split at hcompare
    · next hm =>
      split at hcompare
      · next hmantissa => exact .inr ⟨hmantissa, n, e, by rw [hm]⟩
      · cases negative <;> simp [signOf, UnpackedFloat.compare] at hcompare
    · split at hcompare
      · cases n <;> simp [signOf, UnpackedFloat.compare] at hcompare
      · left
        cases n <;> cases negative <;>
          simp [signOf, UnpackedFloat.compare, Ordering.then_eq_eq] at hcompare ⊢ <;> omega

theorem isFinite_of_ofFloat {negative : Bool} {mantissa : Nat} {exponent : Int}
    (h : Binary.ofFloat x = .finite negative mantissa exponent) : x.isFinite = true := by
  have hmodel : x.isFinite = x.toModel.unpack.isFinite := rfl
  rw [hmodel, unpack_toModel, h, Binary.unpacked]
  split <;> rfl

theorem isFinite_of_beq (hx : x.isFinite = true) (h : (y == x) = true) : y.isFinite = true := by
  obtain ⟨n, m, e, hofFloat⟩ := exists_ofFloat_of_isFinite hx
  rcases ofFloat_of_beq hofFloat h with hy | ⟨-, n', e', hy⟩
  · exact isFinite_of_ofFloat hy
  · exact isFinite_of_ofFloat hy

/-- Equal numbers are the same but for the sign of a zero. -/
theorem unsigned_eq_of_beq (hx : x.isFinite = true) (h : (y == x) = true) :
    unsigned y = unsigned x := by
  obtain ⟨n, m, e, hofFloat⟩ := exists_ofFloat_of_isFinite hx
  rcases ofFloat_of_beq hofFloat h with hy | ⟨hm, n', e', hy⟩
  · rw [← toFloat_of_ofFloat hofFloat, ← toFloat_of_ofFloat hy]
  · rw [unsigned_of_zero ((beq_zero_iff hofFloat).2 hm), unsigned_of_zero ((beq_zero_iff hy).2 rfl)]

/-! ## Sums -/

theorem add_eq (x y : Float) :
    x + y = Float.ofModel
      (Float.Model.pack (x.toModel.unpack.add Format.binary64 y.toModel.unpack)) := rfl

/-- To what is no zero both zeros add the same. -/
theorem add_zero_eq (hx : (x == 0.0) = true) (hz : (z == 0.0) = true) (hy : ¬ (y == 0.0) = true) :
    x + y = z + y ∧ y + x = y + z := by
  obtain ⟨s, hs⟩ := beq_zero_iff_unpack.1 hx
  obtain ⟨t, ht⟩ := beq_zero_iff_unpack.1 hz
  rw [add_eq, add_eq, add_eq, add_eq, hs, ht]
  cases hunpack : y.toModel.unpack with
  | notANumber => exact ⟨rfl, rfl⟩
  | infinity u => exact ⟨rfl, rfl⟩
  | zero u => exact absurd (beq_zero_iff_unpack.2 ⟨u, hunpack⟩) hy
  | finite u m e hm => exact ⟨rfl, rfl⟩

theorem zero_add_zero (hx : (x == 0.0) = true) (hy : (y == 0.0) = true) :
    (x + y == 0.0) = true := by
  obtain ⟨s, hs⟩ := beq_zero_iff_unpack.1 hx
  obtain ⟨t, ht⟩ := beq_zero_iff_unpack.1 hy
  rw [add_eq, hs, ht]
  cases s <;> cases t <;> decide

/-- The signs of zeros do not tell in a sum. -/
theorem unsigned_add (x y : Float) : unsigned (unsigned x + unsigned y) = unsigned (x + y) := by
  by_cases hx : (x == 0.0) = true
  · by_cases hy : (y == 0.0) = true
    · rw [unsigned_of_zero hx, unsigned_of_zero hy, unsigned_of_zero (zero_add_zero hx hy)]
      exact unsigned_of_zero (zero_add_zero zero_beq_zero zero_beq_zero)
    · rw [unsigned_of_zero hx, unsigned_of_not_zero hy, (add_zero_eq zero_beq_zero hx hy).1]
  · by_cases hy : (y == 0.0) = true
    · rw [unsigned_of_not_zero hx, unsigned_of_zero hy, (add_zero_eq zero_beq_zero hy hx).2]
    · rw [unsigned_of_not_zero hx, unsigned_of_not_zero hy]

theorem unsigned_unsigned (x : Float) : unsigned (unsigned x) = unsigned x := by
  by_cases hx : (x == 0.0) = true
  · rw [unsigned_of_zero hx, unsigned_of_zero zero_beq_zero]
  · rw [unsigned_of_not_zero hx, unsigned_of_not_zero hx]

end Double
end SvgCompact
