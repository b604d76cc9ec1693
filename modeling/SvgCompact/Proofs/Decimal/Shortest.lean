import Mathlib.Data.Nat.Cast.Order.Field
import SvgCompact.Decimal.Reader
import SvgCompact.Decimal.Shortest
import SvgCompact.Proofs.Decimal.Nearest

/-!
The shortest digits lie within the reach of their double.

A number `mantissa · 10 ^ exponent` is read in two ways.  Small mantissas are multiplied or
divided by a power of ten that is a double itself, and all others go through exact products
and quotients of integers.  Either way a number within the reach of a double is read as that
double.

A hit on a grid is within the reach because the test compares with its ends.  On the grid of
seventeen digits the step is smaller than the reach, so the search ends with a hit.
-/

namespace SvgCompact
namespace Decimal

open Float.Model Float.Model.UnpackedFloat

variable {mantissa : ℕ} {exponent : ℤ} {m₁ m₂ : ℕ} {e₁ e₂ : ℤ}

/-! ## Products and quotients -/

theorem le_targetExponent {n : ℕ} {k : ℤ} (h : 2 ^ 52 ≤ n) :
    k ≤ Format.binary64.targetExponent (totalExponent n k) := by
  have hlog : 52 ≤ n.log2 := (Nat.le_log2 (by omega)).2 h
  rw [targetExponent_eq, totalExponent]
  omega

theorem mul_eq_of_roundsTo (h : IsDouble mantissa exponent)
    (hv : RoundsTo (m₁ * 2 ^ e₁ * (m₂ * 2 ^ e₂)) mantissa exponent) (hfull : 2 ^ 52 ≤ m₁)
    (h₁ : 0 < m₁) (h₂ : 0 < m₂) :
    UnpackedFloat.mul Format.binary64 (.finite .positive m₁ e₁ h₁) (.finite .positive m₂ e₂ h₂) =
      (Binary.finite false mantissa exponent).unpacked := by
  have hquotient : (m₁ * 2 ^ e₁ * (m₂ * 2 ^ e₂) : ℚ) / 2 ^ (e₁ + e₂) = (m₁ * m₂ : ℕ) := by
    rw [div_eq_iff (two_zpow_pos _).ne', two_zpow_add]
    push_cast
    ring
  have hrep := represents_exact (m₁ * m₂)
  rw [← hquotient] at hrep
  have hbits : 2 ^ 52 ≤ m₁ * m₂ := hfull.trans (Nat.le_mul_of_pos_right m₁ h₂)
  exact roundWithAccuracy_eq h hv hrep (le_targetExponent hbits) false

/-- The quotient is taken with enough bits for the place it is rounded to. -/
theorem le_targetExponent_div {t : ℤ} (h₁ : m₁ ≠ 0) (h₂ : 0 < m₂) (hle : t ≤ e₁ - e₂)
    (ht : t ≤ Format.binary64.targetExponent (totalExponent m₁ e₁ - totalExponent m₂ e₂)) :
    t ≤ Format.binary64.targetExponent
      (totalExponent (m₁ <<< (e₁ - e₂ - t).toNat / m₂) t) := by
  by_cases hleast : t ≤ -1074
  · rw [targetExponent_eq]
    exact hleast.trans (le_max_right _ _)
  · apply le_targetExponent
    rw [targetExponent_eq, totalExponent, totalExponent] at ht
    have hshift : 53 + m₂.log2 ≤ m₁.log2 + (e₁ - e₂ - t).toNat := by omega
    rw [Nat.le_div_iff_mul_le h₂, Nat.shiftLeft_eq]
    calc 2 ^ 52 * m₂ ≤ 2 ^ 52 * 2 ^ (m₂.log2 + 1) := by
          exact Nat.mul_le_mul_left _ Nat.lt_log2_self.le
      _ = 2 ^ (53 + m₂.log2) := by rw [← pow_add]; congr 1; omega
      _ ≤ 2 ^ (m₁.log2 + (e₁ - e₂ - t).toNat) := Nat.pow_le_pow_right (by decide) hshift
      _ = 2 ^ m₁.log2 * 2 ^ (e₁ - e₂ - t).toNat := pow_add _ _ _
      _ ≤ m₁ * 2 ^ (e₁ - e₂ - t).toNat := Nat.mul_le_mul_right _ (Nat.log2_self_le h₁)

theorem div_eq_of_roundsTo (h : IsDouble mantissa exponent)
    (hv : RoundsTo (m₁ * 2 ^ e₁ / (m₂ * 2 ^ e₂)) mantissa exponent) (h₁ : 0 < m₁) (h₂ : 0 < m₂) :
    UnpackedFloat.div Format.binary64 (.finite .positive m₁ e₁ h₁) (.finite .positive m₂ e₂ h₂) =
      (Binary.finite false mantissa exponent).unpacked := by
  obtain ⟨t, ht⟩ : ∃ t, min (e₁ - e₂)
    (Format.binary64.targetExponent (totalExponent m₁ e₁ - totalExponent m₂ e₂)) = t := ⟨_, rfl⟩
  have hle : t ≤ e₁ - e₂ := ht ▸ min_le_left _ _
  have htarget := ht ▸ min_le_right (e₁ - e₂)
    (Format.binary64.targetExponent (totalExponent m₁ e₁ - totalExponent m₂ e₂))
  have hquotient : (m₁ * 2 ^ e₁ / (m₂ * 2 ^ e₂) : ℚ) / 2 ^ t =
      (m₁ <<< (e₁ - e₂ - t).toNat : ℕ) / m₂ := by
    have hpower : (2 : ℚ) ^ (e₁ - e₂ - t).toNat * 2 ^ e₂ * 2 ^ t = 2 ^ e₁ := by
      rw [← zpow_natCast, ← two_zpow_add, ← two_zpow_add]
      congr 1
      omega
    have hm : (m₂ : ℚ) ≠ 0 := by exact_mod_cast h₂.ne'
    have h₂' := (two_zpow_pos e₂).ne'
    have ht' := (two_zpow_pos t).ne'
    rw [Nat.shiftLeft_eq, div_div, div_eq_div_iff (mul_ne_zero (mul_ne_zero hm h₂') ht') hm,
      ← hpower]
    push_cast
    ring
  have hrep := represents_quotient (m₁ <<< (e₁ - e₂ - t).toNat) h₂
  rw [← hquotient] at hrep
  simp only [UnpackedFloat.div, divCore, ht]
  exact roundWithAccuracy_eq h hv hrep (le_targetExponent_div h₁.ne' h₂ hle htarget) false

/-! ## Small integers and small powers of ten -/

theorem roundsTo_self (mantissa : ℕ) (exponent : ℤ) :
    RoundsTo (mantissa * 2 ^ exponent) mantissa exponent := by
  have hunit := two_zpow_pos exponent
  have hreach : 0 < reachBelow mantissa exponent := by
    rw [reachBelow]
    split <;> norm_num
  refine ⟨mul_le_mul_of_nonneg_right (by linarith) hunit.le,
    mul_le_mul_of_nonneg_right (by linarith) hunit.le, ?_⟩
  rintro (hend | hend)
  · have := mul_right_cancel₀ hunit.ne' hend
    linarith
  · have := mul_right_cancel₀ hunit.ne' hend
    linarith

/-- Integers below `2 ^ 53` are doubles. -/
theorem toFloat_toUInt64 {n : ℕ} (hn : n ≠ 0) (hlt : n < 2 ^ 53) :
    ∃ mantissa exponent, IsDouble mantissa exponent ∧ 2 ^ 52 ≤ mantissa ∧
      (mantissa * 2 ^ exponent : ℚ) = n ∧
      n.toUInt64.toFloat = (Binary.finite false mantissa exponent).toFloat := by
  have hlog : n.log2 < 53 := (Nat.log2_lt hn).2 hlt
  obtain ⟨s, hs⟩ : ∃ s, 52 - n.log2 = s := ⟨_, rfl⟩
  have hlow : 2 ^ 52 ≤ n * 2 ^ s := by
    calc 2 ^ 52 = 2 ^ n.log2 * 2 ^ s := by rw [← pow_add]; congr 1; omega
      _ ≤ n * 2 ^ s := Nat.mul_le_mul_right _ (Nat.log2_self_le hn)
  have hhigh : n * 2 ^ s < 2 ^ 53 := by
    calc n * 2 ^ s < 2 ^ (n.log2 + 1) * 2 ^ s := by
          exact Nat.mul_lt_mul_of_pos_right Nat.lt_log2_self (by positivity)
      _ = 2 ^ 53 := by rw [← pow_add]; congr 1; omega
  have hdouble : IsDouble (n * 2 ^ s) (-s) := ⟨hhigh, by omega, by omega, .inl hlow⟩
  have hround : UnpackedFloat.round Format.binary64 .positive n 0 =
      (Binary.finite false (n * 2 ^ s) (-s)).unpacked := by
    have htarget : (-Format.binary64.targetExponent (totalExponent n 0)).toNat = s := by
      rw [targetExponent_eq, totalExponent]
      omega
    have hrep := represents_exact (n * 2 ^ s)
    have hself : ((n * 2 ^ s : ℕ) : ℚ) = (n * 2 ^ s : ℕ) * 2 ^ (-s : ℤ) / 2 ^ (-s : ℤ) :=
      (mul_div_cancel_right₀ _ (two_zpow_pos _).ne').symm
    rw [hself] at hrep
    simp only [UnpackedFloat.round, decreaseExponent, zero_sub, htarget, Nat.shiftLeft_eq]
    exact roundWithAccuracy_eq hdouble (roundsTo_self _ _) hrep (le_targetExponent hlow) false
  refine ⟨n * 2 ^ s, -s, hdouble, hlow, ?_, ?_⟩
  · push_cast
    rw [mul_assoc, ← zpow_natCast, ← two_zpow_add, add_neg_cancel, zpow_zero, mul_one]
  · have hnat : n.toUInt64.toNat = n := by
      rw [Nat.toUInt64_eq, UInt64.toNat_ofNat']
      omega
    have hfloat : n.toUInt64.toFloat =
        Float.ofModel (Float.Model.pack (UnpackedFloat.ofNat Format.binary64 n.toUInt64.toNat)) :=
      rfl
    have hpos : compare (n : ℤ) 0 = .gt := Int.compare_eq_gt.2 (by omega)
    rw [hfloat, hnat, UnpackedFloat.ofNat, UnpackedFloat.ofInt, UnpackedFloat.normalize, hpos]
    simp only [Int.toNat_natCast, hround]
    rfl

/-- Whether a double is a power of ten and uses all bits of its mantissa. -/
def isPowerOfTen (n : ℕ) : Binary → Bool
  | .finite false mantissa exponent =>
    2 ^ 52 ≤ mantissa && mantissa * 2 ^ exponent.toNat == 10 ^ n * 2 ^ (-exponent).toNat
  | _ => false

theorem isPowerOfTen_table : ∀ i (_ : i < Float.exactlyRepresentablePowersOfTen.size),
    isPowerOfTen i (Binary.ofFloat Float.exactlyRepresentablePowersOfTen[i]) = true := by
  decide

theorem exists_of_isPowerOfTen {n : ℕ} {x : Float} (h : isPowerOfTen n (Binary.ofFloat x) = true) :
    ∃ mantissa exponent, Binary.ofFloat x = .finite false mantissa exponent ∧ 2 ^ 52 ≤ mantissa ∧
      (mantissa * 2 ^ exponent : ℚ) = 10 ^ n := by
  cases hx : Binary.ofFloat x with
  | nan => rw [hx] at h; cases h
  | infinite negative => rw [hx] at h; cases h
  | finite negative mantissa exponent =>
    rw [hx] at h
    cases negative with
    | true => cases h
    | false =>
      simp only [isPowerOfTen, Bool.and_eq_true, decide_eq_true_eq, beq_iff_eq] at h
      refine ⟨mantissa, exponent, rfl, h.1, ?_⟩
      have hcast : (mantissa * 2 ^ exponent.toNat : ℚ) = 10 ^ n * 2 ^ (-exponent).toNat := by
        exact_mod_cast h.2
      rw [← zpow_mul_pow_toNat two_ne_zero, ← mul_assoc] at hcast
      exact mul_right_cancel₀ (pow_ne_zero _ two_ne_zero) hcast

/-! ## Decimal numbers -/

theorem unpacked_of_pos (negative : Bool) (h : 0 < mantissa) :
    (Binary.finite negative mantissa exponent).unpacked =
      .finite (signOf negative) mantissa exponent h :=
  dif_neg h.ne'

section

variable (h : IsDouble mantissa exponent) {m : ℕ} {e : ℤ} (hm : m ≠ 0)
  (hv : RoundsTo (m * 10 ^ e) mantissa exponent)
include h hm hv

/-- The exact way: a product or a quotient of integers is rounded once. -/
theorem unpacked_ofScientific (hmost : e ≤ 2 ^ 11) (hleast : -(2 ^ 11 + (m.log2 : ℤ)) ≤ e) :
    UnpackedFloat.ofScientific Format.binary64 m e =
      (Binary.finite false mantissa exponent).unpacked := by
  rw [UnpackedFloat.ofScientific, dif_neg hm, if_neg (not_lt.2 hmost), if_neg (not_lt.2 hleast)]
  split
  · next hnonneg =>
    have hvalue : ((m <<< 53 : ℕ) * 2 ^ (-53 : ℤ) * ((10 ^ e.toNat : ℕ) * 2 ^ (0 : ℤ)) : ℚ) =
        m * 10 ^ e := by
      rw [Nat.shiftLeft_eq, zpow_zero, mul_one]
      push_cast
      rw [← zpow_natCast, Int.toNat_of_nonneg hnonneg, mul_assoc (m : ℚ), zpow_neg]
      norm_num
    have hfull : 2 ^ 52 ≤ m <<< 53 := by
      rw [Nat.shiftLeft_eq]
      omega
    rw [← hvalue] at hv
    exact mul_eq_of_roundsTo h hv hfull _ _
  · next hneg =>
    have hvalue : ((m : ℕ) * 2 ^ (0 : ℤ) / ((10 ^ (-e).toNat : ℕ) * 2 ^ (0 : ℤ)) : ℚ) =
        m * 10 ^ e := by
      rw [zpow_zero, mul_one, mul_one]
      push_cast
      rw [← zpow_natCast, Int.toNat_of_nonneg (by omega), zpow_neg, div_inv_eq_mul]
    rw [← hvalue] at hv
    exact div_eq_of_roundsTo h hv _ _

/-- The short way: the mantissa and the power of ten are doubles. -/
theorem ofScientific_small (hsmall : m < 2 ^ 53) (hpower : e.natAbs ≤ 22) :
    Float.ofScientific m (e < 0) e.natAbs = (Binary.finite false mantissa exponent).toFloat := by
  obtain ⟨m₁, e₁, hdouble₁, hfull₁, hvalue₁, hfloat₁⟩ := toFloat_toUInt64 hm hsmall
  have hsize : e.natAbs < Float.exactlyRepresentablePowersOfTen.size := Nat.lt_succ_of_le hpower
  obtain ⟨m₂, e₂, hfloat₂, hfull₂, hvalue₂⟩ :=
    exists_of_isPowerOfTen (isPowerOfTen_table e.natAbs hsize)
  have hunpacked₁ : m.toUInt64.toFloat.toModel.unpack = .finite .positive m₁ e₁ (by omega) := by
    rw [hfloat₁, unpack_toModel, ofFloat_toFloat hdouble₁]
    exact unpacked_of_pos false _
  have hunpacked₂ : Float.exactlyRepresentablePowersOfTen[e.natAbs].toModel.unpack =
      .finite .positive m₂ e₂ (by omega) := by
    rw [unpack_toModel, hfloat₂]
    exact unpacked_of_pos false _
  have hdiv : m.toUInt64.toFloat / Float.exactlyRepresentablePowersOfTen[e.natAbs] =
      Float.ofModel (Float.Model.pack (UnpackedFloat.div Format.binary64
        m.toUInt64.toFloat.toModel.unpack
        Float.exactlyRepresentablePowersOfTen[e.natAbs].toModel.unpack)) := rfl
  have hmul : m.toUInt64.toFloat * Float.exactlyRepresentablePowersOfTen[e.natAbs] =
      Float.ofModel (Float.Model.pack (UnpackedFloat.mul Format.binary64
        m.toUInt64.toFloat.toModel.unpack
        Float.exactlyRepresentablePowersOfTen[e.natAbs].toModel.unpack)) := rfl
  rw [Float.ofScientific, dif_pos ⟨hsmall, hpower⟩]
  rcases Int.lt_or_le e 0 with hneg | hnonneg
  · have hexponent : (e.natAbs : ℤ) = -e := by omega
    have hvalue : (m₁ * 2 ^ e₁ / (m₂ * 2 ^ e₂) : ℚ) = m * 10 ^ e := by
      rw [hvalue₁, hvalue₂, ← zpow_natCast, hexponent, zpow_neg, div_inv_eq_mul]
    rw [← hvalue] at hv
    rw [if_pos (decide_eq_true hneg), hdiv, hunpacked₁, hunpacked₂, div_eq_of_roundsTo h hv]
    rfl
  · have hexponent : (e.natAbs : ℤ) = e := by omega
    have hvalue : (m₁ * 2 ^ e₁ * (m₂ * 2 ^ e₂) : ℚ) = m * 10 ^ e := by
      rw [hvalue₁, hvalue₂, ← zpow_natCast, hexponent]
    rw [← hvalue] at hv
    rw [if_neg (by simpa using hnonneg), hmul, hunpacked₁, hunpacked₂,
      mul_eq_of_roundsTo h hv hfull₁]
    rfl

theorem ofScientific_of_roundsTo (hmost : e ≤ 2 ^ 11) (hleast : -(2 ^ 11 + (m.log2 : ℤ)) ≤ e) :
    Float.ofScientific m (e < 0) e.natAbs = (Binary.finite false mantissa exponent).toFloat := by
  by_cases hsmall : m < 2 ^ 53 ∧ e.natAbs ≤ 22
  · exact ofScientific_small h hm hv hsmall.1 hsmall.2
  · have hexponent : (if decide (e < 0) = true then Int.negOfNat e.natAbs else Int.ofNat e.natAbs) =
        e := by
      rcases Int.lt_or_le e 0 with hneg | hnonneg
      · rw [if_pos (decide_eq_true hneg), Int.negOfNat_eq, Int.ofNat_eq_natCast]
        omega
      · rw [if_neg (by simpa using hnonneg), Int.ofNat_eq_natCast]
        omega
    rw [Float.ofScientific, dif_neg hsmall]
    simp only [hexponent]
    rw [Float.Model.ofScientific, unpacked_ofScientific h hm hv hmost hleast]
    rfl

end

/-! ## The size of a number -/

theorem lt_ten_pow_length (m : ℕ) : m < 10 ^ (Nat.toDigits 10 m).length :=
  (Nat.length_toDigits_le_iff (by decide) Nat.length_toDigits_pos).1 le_rfl

theorem ten_pow_length_le {m : ℕ} (hm : m ≠ 0) : 10 ^ ((Nat.toDigits 10 m).length - 1) ≤ m := by
  by_cases hone : (Nat.toDigits 10 m).length - 1 = 0
  · rw [hone]
    exact Nat.one_le_iff_ne_zero.2 hm
  · by_contra hlt
    have hle := (Nat.length_toDigits_le_iff (by decide) (Nat.pos_of_ne_zero hone)).2 (not_le.1 hlt)
    omega

theorem ten_zpow_add (j k : ℤ) : (10 : ℚ) ^ (j + k) = 10 ^ j * 10 ^ k :=
  zpow_add₀ (by norm_num) j k

theorem ten_zpow_pos (k : ℤ) : (0 : ℚ) < 10 ^ k := zpow_pos (by norm_num) k

theorem ten_zpow_le {j k : ℤ} (h : j ≤ k) : (10 : ℚ) ^ j ≤ 10 ^ k :=
  zpow_le_zpow_right₀ (by norm_num) h

section

variable {m : ℕ} {e : ℤ}

/-- The size counts the digits in front of the point. -/
theorem scientific_bounds (hm : m ≠ 0) :
    (10 : ℚ) ^ ((Nat.toDigits 10 m).length + e - 1) ≤ m * 10 ^ e ∧
      (m * 10 ^ e : ℚ) < 10 ^ ((Nat.toDigits 10 m).length + e) := by
  have hunit := ten_zpow_pos e
  have hpos : 0 < (Nat.toDigits 10 m).length := Nat.length_toDigits_pos
  constructor
  · have hle : (10 : ℚ) ^ ((Nat.toDigits 10 m).length - 1 : ℕ) ≤ m := by
      exact_mod_cast ten_pow_length_le hm
    calc (10 : ℚ) ^ ((Nat.toDigits 10 m).length + e - 1)
        = 10 ^ ((Nat.toDigits 10 m).length - 1 : ℕ) * 10 ^ e := by
          rw [← zpow_natCast, ← ten_zpow_add]; congr 1; omega
      _ ≤ m * 10 ^ e := by gcongr
  · have hlt : (m : ℚ) < 10 ^ (Nat.toDigits 10 m).length := by
      exact_mod_cast lt_ten_pow_length m
    calc (m * 10 ^ e : ℚ) < 10 ^ (Nat.toDigits 10 m).length * 10 ^ e := by gcongr
      _ = 10 ^ ((Nat.toDigits 10 m).length + e) := by rw [← zpow_natCast, ← ten_zpow_add]

theorem zpow_lt_zpow_of_pow {a b j k : ℕ} (h : a ^ j < b ^ k) :
    (a : ℚ) ^ (j : ℤ) < b ^ (k : ℤ) := by
  rw [zpow_natCast, zpow_natCast]
  exact_mod_cast h

/-- Every 93 binary digits are less than 28 decimal ones. -/
theorem two_pow_lt_ten_pow {j k m d : ℕ} (n : ℕ) (h : 2 ^ j < 10 ^ k) (hm : m = 93 * n + j)
    (hd : d = 28 * n + k) : 2 ^ m < 10 ^ d := by
  have hdigits : 2 ^ (93 * n) ≤ 10 ^ (28 * n) := by
    rw [pow_mul, pow_mul]
    exact Nat.pow_le_pow_left (by norm_num) n
  rw [hm, hd, pow_add, pow_add]
  exact Nat.mul_lt_mul_of_le_of_lt hdigits h (Nat.pow_pos (by decide))

theorem two_zpow_lt_ten_zpow : (2 : ℚ) ^ (1024 : ℤ) < 10 ^ (310 : ℤ) :=
  zpow_lt_zpow_of_pow (a := 2) (b := 10) (j := 1024) (k := 310)
    (two_pow_lt_ten_pow (j := 1) (k := 2) 11 (by decide) rfl rfl)

theorem ten_zpow_lt_two_zpow : (10 : ℚ) ^ (-331 : ℤ) < 2 ^ (-1075 : ℤ) := by
  have hpow : (2 : ℚ) ^ (1075 : ℤ) < 10 ^ (331 : ℤ) :=
    zpow_lt_zpow_of_pow (a := 2) (b := 10) (j := 1075) (k := 331)
      (two_pow_lt_ten_pow (j := 52) (k := 23) 11 (by norm_num) rfl rfl)
  rw [zpow_neg, zpow_neg]
  exact inv_strictAnti₀ (two_zpow_pos _) hpow

theorem RoundsTo.bounds {v : ℚ} (h : IsDouble mantissa exponent) (hne : mantissa ≠ 0)
    (hv : RoundsTo v mantissa exponent) : (2 : ℚ) ^ (-1075 : ℤ) ≤ v ∧ v < 2 ^ (1024 : ℤ) := by
  have hreach := reachBelow_le mantissa exponent
  have hone : (1 : ℚ) ≤ mantissa := by exact_mod_cast Nat.one_le_iff_ne_zero.2 hne
  have htop : (mantissa : ℚ) + 1 ≤ 2 ^ 53 := by exact_mod_cast h.lt
  have hunit := two_zpow_pos exponent
  constructor
  · calc (2 : ℚ) ^ (-1075 : ℤ) = 1 / 2 * 2 ^ (-1074 : ℤ) := by
          rw [show (-1075 : ℤ) = -1 + -1074 from rfl, two_zpow_add]; norm_num
      _ ≤ (mantissa - reachBelow mantissa exponent) * 2 ^ exponent := by
          have := two_zpow_le h.least
          exact mul_le_mul (by linarith) this (two_zpow_pos _).le (by linarith)
      _ ≤ v := hv.low
  · calc v ≤ (mantissa + 1 / 2) * 2 ^ exponent := hv.high
      _ < 2 ^ 53 * 2 ^ exponent := by gcongr; linarith
      _ ≤ 2 ^ 53 * 2 ^ (971 : ℤ) := by
          have := two_zpow_le h.most
          gcongr
      _ = 2 ^ (1024 : ℤ) := by rw [← zpow_natCast, ← two_zpow_add]; rfl

/-- What is within the reach of a double is read as that double. -/
theorem scientific_of_roundsTo (h : IsDouble mantissa exponent) (hne : mantissa ≠ 0)
    (hv : RoundsTo (m * 10 ^ e) mantissa exponent) :
    scientific m e = (Binary.finite false mantissa exponent).toFloat := by
  obtain ⟨hleast, hmost⟩ := hv.bounds h hne
  have hm : m ≠ 0 := by
    rintro rfl
    have := two_zpow_pos (-1075)
    rw [Nat.cast_zero, zero_mul] at hleast
    linarith
  obtain ⟨hlower, hupper⟩ := scientific_bounds (e := e) hm
  have hpos : 0 < (Nat.toDigits 10 m).length := Nat.length_toDigits_pos
  obtain ⟨size, hsize⟩ : ∃ size : ℤ, (Nat.toDigits 10 m).length + e = size := ⟨_, rfl⟩
  rw [hsize] at hlower hupper
  have hsmall : -330 ≤ size := by
    by_contra hlt
    have hten := ten_zpow_le (show size ≤ -331 by omega)
    exact absurd hleast (not_le.2 (hupper.trans (hten.trans_lt ten_zpow_lt_two_zpow)))
  have hlarge : size ≤ 310 := by
    by_contra hlt
    have hten := ten_zpow_le (show 310 ≤ size - 1 by omega)
    exact absurd hmost (not_lt.2 ((two_zpow_lt_ten_zpow.le.trans hten).trans hlower))
  have hlog : (Nat.toDigits 10 m).length - 1 ≤ m.log2 := by
    rw [Nat.le_log2 hm]
    exact (Nat.pow_le_pow_left (by decide) _).trans (ten_pow_length_le hm)
  simp only [scientific, hsize]
  rw [if_neg (by omega), if_neg (by omega)]
  exact ofScientific_of_roundsTo h hm hv (by omega) (by omega)

end

end Decimal

/-! ## Shortest digits -/

namespace Decimal

variable {tie : Tie} {mantissa : ℕ} {exponent place : ℤ} {n : ℕ}

/-- The number that some digits stand for. -/
def Digits.value (d : Digits) : ℚ := d.digits * 10 ^ d.exponent

/-! ## The test on one grid -/

/-- The unit in which the test measures: a quarter of the last place, times what makes
all numbers integers. -/
def gridUnit (exponent place : ℤ) : ℚ := 4 * (2 ^ (-exponent).toNat * 10 ^ (-place).toNat)

theorem gridUnit_pos (exponent place : ℤ) : 0 < gridUnit exponent place := by
  rw [gridUnit]
  positivity

/-- The ends of the reach and the steps of the grid, as the test has them. -/
def gridLow (mantissa : ℕ) (exponent place : ℤ) : ℕ :=
  (if mantissa = powerOfTwo (Width.double.precision - 1) ∧ Width.double.least < exponent then
    4 * mantissa - 1 else 4 * mantissa - 2) *
      (powerOfTwo exponent.toNat * Nat.pow 10 (-place).toNat)

def gridHigh (mantissa : ℕ) (exponent place : ℤ) : ℕ :=
  (4 * mantissa + 2) * (powerOfTwo exponent.toNat * Nat.pow 10 (-place).toNat)

def gridValue (mantissa : ℕ) (exponent place : ℤ) : ℕ :=
  4 * mantissa * (powerOfTwo exponent.toNat * Nat.pow 10 (-place).toNat)

def gridStep (exponent place : ℤ) : ℕ :=
  Nat.pow 10 place.toNat * 4 * powerOfTwo (-exponent).toNat

theorem cast_scale (exponent place : ℤ) :
    ((powerOfTwo exponent.toNat * Nat.pow 10 (-place).toNat : ℕ) : ℚ) * 4 =
      gridUnit exponent place * 2 ^ exponent := by
  rw [gridUnit, powerOfTwo, Nat.pow_eq, Nat.pow_eq]
  push_cast
  rw [← zpow_mul_pow_toNat two_ne_zero exponent]
  ring

theorem cast_gridStep (n : ℕ) (exponent place : ℤ) :
    ((n * gridStep exponent place : ℕ) : ℚ) = gridUnit exponent place * (n * 10 ^ place) := by
  rw [gridStep, gridUnit, powerOfTwo, Nat.pow_eq, Nat.pow_eq]
  push_cast
  rw [← zpow_mul_pow_toNat (show (10 : ℚ) ≠ 0 by norm_num) place]
  ring

theorem cast_gridHigh (mantissa : ℕ) (exponent place : ℤ) :
    (gridHigh mantissa exponent place : ℚ) =
      gridUnit exponent place * ((mantissa + 1 / 2) * 2 ^ exponent) := by
  have hscale := cast_scale exponent place
  rw [gridHigh, Nat.cast_mul, mul_left_comm, ← hscale]
  push_cast
  ring

theorem cast_gridLow (h : mantissa ≠ 0) (exponent place : ℤ) :
    (gridLow mantissa exponent place : ℚ) =
      gridUnit exponent place * ((mantissa - reachBelow mantissa exponent) * 2 ^ exponent) := by
  have hscale := cast_scale exponent place
  have hnarrow : (mantissa = powerOfTwo (Width.double.precision - 1) ∧
      Width.double.least < exponent) ↔ mantissa = 2 ^ 52 ∧ -1074 < exponent := Iff.rfl
  rw [gridLow, reachBelow, Nat.cast_mul, mul_left_comm, ← hscale]
  simp only [hnarrow]
  split
  · rw [Nat.cast_sub (by omega)]
    push_cast
    ring
  · rw [Nat.cast_sub (by omega)]
    push_cast
    ring

/-- Whether the test counts a step of the grid as a hit. -/
def GridHit (mantissa : ℕ) (exponent place : ℤ) (n : ℕ) : Prop :=
  (gridLow mantissa exponent place < n * gridStep exponent place ∧
    n * gridStep exponent place < gridHigh mantissa exponent place) ∨
  (mantissa % 2 = 0 ∧ (gridLow mantissa exponent place = n * gridStep exponent place ∨
    n * gridStep exponent place = gridHigh mantissa exponent place))

theorem gridHit_of_onGrid? (h : onGrid? Width.double tie mantissa exponent place = some n) :
    GridHit mantissa exponent place n := by
  simp only [onGrid?] at h
  split at h
  · next hfloor _ =>
    cases h
    have hhit := of_decide_eq_true hfloor
    exact hhit
  · next _ hnext =>
    cases h
    have hhit := of_decide_eq_true hnext
    exact hhit
  · cases h
  · next hfloor hnext =>
    have hhit := of_decide_eq_true hfloor
    have hhit' := of_decide_eq_true hnext
    split at h
    · cases h
      exact hhit
    · split at h
      · cases h
        exact hhit'
      · split at h
        · cases h
          exact hhit
        · cases h
          exact hhit'

theorem not_gridHit_of_onGrid? (h : onGrid? Width.double tie mantissa exponent place = none) :
    ¬ GridHit mantissa exponent place
        (gridValue mantissa exponent place / gridStep exponent place) ∧
      ¬ GridHit mantissa exponent place
        (gridValue mantissa exponent place / gridStep exponent place + 1) := by
  simp only [onGrid?] at h
  split at h
  · cases h
  · cases h
  · next hfloor hnext =>
    have hmiss := of_decide_eq_false hfloor
    have hmiss' := of_decide_eq_false hnext
    exact ⟨hmiss, hmiss'⟩
  · split at h
    · cases h
    · split at h
      · cases h
      · split at h <;> cases h

theorem gridLow_lt_gridValue (hne : mantissa ≠ 0) (exponent place : ℤ) :
    gridLow mantissa exponent place < gridValue mantissa exponent place := by
  have hscale : 0 < powerOfTwo exponent.toNat * Nat.pow 10 (-place).toNat :=
    Nat.mul_pos (Nat.pow_pos two_pos) (Nat.pow_pos (by decide))
  rw [gridLow, gridValue]
  refine Nat.mul_lt_mul_of_pos_right ?_ hscale
  split <;> omega

theorem gridValue_lt_gridHigh (mantissa : ℕ) (exponent place : ℤ) :
    gridValue mantissa exponent place < gridHigh mantissa exponent place := by
  have hscale : 0 < powerOfTwo exponent.toNat * Nat.pow 10 (-place).toNat :=
    Nat.mul_pos (Nat.pow_pos two_pos) (Nat.pow_pos (by decide))
  rw [gridValue, gridHigh]
  exact Nat.mul_lt_mul_of_pos_right (by omega) hscale

/-- A hit is within the reach. -/
theorem GridHit.roundsTo (hne : mantissa ≠ 0) (h : GridHit mantissa exponent place n) :
    RoundsTo (n * 10 ^ place) mantissa exponent := by
  have hunit := gridUnit_pos exponent place
  have hlow := cast_gridLow hne exponent place
  have hhigh := cast_gridHigh mantissa exponent place
  have hstep := cast_gridStep n exponent place
  have hends := (gridLow_lt_gridValue hne exponent place).trans
    (gridValue_lt_gridHigh mantissa exponent place)
  have hbetween : gridLow mantissa exponent place ≤ n * gridStep exponent place ∧
      n * gridStep exponent place ≤ gridHigh mantissa exponent place := by
    rcases h with h | ⟨-, heq | heq⟩ <;> omega
  have htie : n * gridStep exponent place = gridLow mantissa exponent place ∨
      n * gridStep exponent place = gridHigh mantissa exponent place → mantissa % 2 = 0 := by
    rcases h with h | ⟨heven, -⟩
    · omega
    · exact fun _ => heven
  refine ⟨?_, ?_, ?_⟩
  · refine le_of_mul_le_mul_left ?_ hunit
    rw [← hlow, ← hstep]
    exact_mod_cast hbetween.1
  · refine le_of_mul_le_mul_left ?_ hunit
    rw [← hhigh, ← hstep]
    exact_mod_cast hbetween.2
  · rintro (heq | heq)
    · rw [heq, ← hlow] at hstep
      exact htie (.inl (by exact_mod_cast hstep))
    · rw [heq, ← hhigh] at hstep
      exact htie (.inr (by exact_mod_cast hstep))

/-- A grid finer than the reach has a hit. -/
theorem onGrid?_ne_none (hne : mantissa ≠ 0)
    (hfine : (10 : ℚ) ^ place < (1 / 2 + reachBelow mantissa exponent) * 2 ^ exponent) :
    onGrid? Width.double tie mantissa exponent place ≠ none := by
  intro hnone
  obtain ⟨hmiss, hmiss'⟩ := not_gridHit_of_onGrid? hnone
  have hunit := gridUnit_pos exponent place
  have hstep : 0 < gridStep exponent place :=
    Nat.mul_pos (Nat.mul_pos (Nat.pow_pos (by decide)) (by decide)) (Nat.pow_pos two_pos)
  have hbelow := gridLow_lt_gridValue hne exponent place
  have habove := gridValue_lt_gridHigh mantissa exponent place
  have hfloor := Nat.div_mul_le_self (gridValue mantissa exponent place) (gridStep exponent place)
  have hnext := Nat.lt_div_mul_add (a := gridValue mantissa exponent place) hstep
  obtain ⟨q, hq⟩ : ∃ q, gridValue mantissa exponent place / gridStep exponent place = q := ⟨_, rfl⟩
  rw [hq] at hmiss hmiss' hfloor hnext
  have hlow : q * gridStep exponent place ≤ gridLow mantissa exponent place := by
    by_contra hlt
    exact hmiss (.inl ⟨by omega, by omega⟩)
  have hhigh : gridHigh mantissa exponent place ≤ (q + 1) * gridStep exponent place := by
    by_contra hlt
    exact hmiss' (.inl ⟨by rw [Nat.add_mul, Nat.one_mul]; omega, by omega⟩)
  have hwide : gridHigh mantissa exponent place ≤
      gridLow mantissa exponent place + 1 * gridStep exponent place := by
    rw [Nat.add_mul] at hhigh
    omega
  have hcast : (gridHigh mantissa exponent place : ℚ) ≤
      gridLow mantissa exponent place + (1 * gridStep exponent place : ℕ) := by
    exact_mod_cast hwide
  rw [cast_gridHigh, cast_gridLow hne, cast_gridStep, ← mul_add, Nat.cast_one, one_mul] at hcast
  have hspan := le_of_mul_le_mul_left hcast hunit
  linarith

/-! ## The search -/

theorem value_trimmed (n : ℕ) (d : Digits) : (Digits.trimmed n d).value = d.value := by
  induction n generalizing d with
  | zero => rfl
  | succ n ih =>
    rw [Digits.trimmed]
    split
    · next hzero =>
      rw [ih, Digits.value, Digits.value]
      have hdigits : (d.digits : ℚ) = (d.digits / 10 : ℕ) * 10 := by
        exact_mod_cast (Nat.div_mul_cancel (Nat.dvd_of_mod_eq_zero hzero.2)).symm
      rw [hdigits, ten_zpow_add]
      norm_num
      ring
    · rfl

theorem roundsTo_firstGrid (hne : mantissa ≠ 0) {size : ℤ}
    (hfine : (10 : ℚ) ^ (size - 17) < (1 / 2 + reachBelow mantissa exponent) * 2 ^ exponent)
    {left count : ℕ} (hcount : left + count = 17) :
    RoundsTo (firstGrid Width.double tie mantissa exponent size (left + 1) count).value
      mantissa exponent := by
  induction left generalizing count with
  | zero =>
    rw [firstGrid]
    split
    · next digits hhit =>
      rw [value_trimmed]
      exact (gridHit_of_onGrid? hhit).roundsTo hne
    · next hnone =>
      have hplace : (count : ℤ) = 17 := by omega
      rw [hplace] at hnone
      exact absurd hnone (onGrid?_ne_none hne hfine)
  | succ left ih =>
    rw [firstGrid]
    split
    · next digits hhit =>
      rw [value_trimmed]
      exact (gridHit_of_onGrid? hhit).roundsTo hne
    · exact ih (by omega)

/-! ## The size of a double -/

theorem ten_pow_digitCount_le {n : ℕ} (hn : n ≠ 0) : 10 ^ (digitCount n - 1) ≤ n :=
  ten_pow_length_le hn

/-- The quotient that `magnitude` counts the digits of is not larger than the number. -/
theorem ten_zpow_digitCount_le {above below : ℕ} (hbelow : below ≠ 0) (hle : below ≤ above) :
    (10 : ℚ) ^ ((digitCount (above / below) : ℤ) - 1) ≤ above / below := by
  have hpos : digitCount (above / below) ≠ 0 := Nat.length_toDigits_pos.ne'
  have hdigits := ten_pow_digitCount_le (Nat.div_pos hle (Nat.pos_of_ne_zero hbelow)).ne'
  calc (10 : ℚ) ^ ((digitCount (above / below) : ℤ) - 1)
      = ((10 ^ (digitCount (above / below) - 1) : ℕ) : ℚ) := by
        push_cast
        rw [← zpow_natCast]
        congr 1
        omega
    _ ≤ ((above / below : ℕ) : ℚ) := by exact_mod_cast hdigits
    _ ≤ above / below := Nat.cast_div_le

theorem cast_pow_ten (k : ℕ) : ((Nat.pow 10 k : ℕ) : ℚ) = 10 ^ (k : ℤ) := by
  rw [Nat.pow_eq, zpow_natCast, Nat.cast_pow]
  rfl

/-- Where the quotient is scaled up, the scale is taken off the count. -/
theorem ten_zpow_digitCount_scaled_le {above below k : ℕ} (hbelow : below ≠ 0)
    (hle : below ≤ above * Nat.pow 10 k) :
    (10 : ℚ) ^ ((digitCount (above * Nat.pow 10 k / below) : ℤ) - k - 1) ≤ above / below := by
  refine le_of_mul_le_mul_right ?_ (ten_zpow_pos k)
  calc (10 : ℚ) ^ ((digitCount (above * Nat.pow 10 k / below) : ℤ) - k - 1) * 10 ^ (k : ℤ)
      = 10 ^ ((digitCount (above * Nat.pow 10 k / below) : ℤ) - 1) := by
        rw [← ten_zpow_add]
        congr 1
        omega
    _ ≤ (above * Nat.pow 10 k : ℕ) / below := ten_zpow_digitCount_le hbelow hle
    _ = above / below * 10 ^ (k : ℤ) := by
        rw [Nat.cast_mul, mul_div_right_comm, cast_pow_ten]

theorem powerOfTwo_le {j k : ℕ} (h : j ≤ k) : powerOfTwo j ≤ powerOfTwo k :=
  Nat.pow_le_pow_right two_pos h

theorem magnitude_le (hne : mantissa ≠ 0) (hleast : -1074 ≤ exponent) :
    (10 : ℚ) ^ (magnitude mantissa exponent - 1) ≤ mantissa * 2 ^ exponent := by
  have hbelow : powerOfTwo (-exponent).toNat ≠ 0 := (Nat.pow_pos two_pos).ne'
  have hvalue : ((mantissa * powerOfTwo exponent.toNat : ℕ) : ℚ) / powerOfTwo (-exponent).toNat =
      mantissa * 2 ^ exponent := by
    rw [powerOfTwo, powerOfTwo, Nat.pow_eq, Nat.pow_eq, div_eq_iff (by positivity)]
    push_cast
    rw [mul_assoc, zpow_mul_pow_toNat two_ne_zero]
  rw [magnitude]
  split
  · next hle =>
    rw [← hvalue]
    exact ten_zpow_digitCount_le hbelow hle
  · have habove : 0 < mantissa * powerOfTwo exponent.toNat :=
      Nat.mul_pos (Nat.pos_of_ne_zero hne) (Nat.pow_pos two_pos)
    have hlarge : powerOfTwo (-exponent).toNat ≤
        mantissa * powerOfTwo exponent.toNat * Nat.pow 10 400 := by
      calc powerOfTwo (-exponent).toNat ≤ powerOfTwo 1074 :=
            powerOfTwo_le (by omega)
        _ ≤ Nat.pow 10 400 := by decide +kernel
        _ ≤ mantissa * powerOfTwo exponent.toNat * Nat.pow 10 400 :=
            Nat.le_mul_of_pos_left _ habove
    have hscaled := ten_zpow_digitCount_scaled_le hbelow hlarge
    rw [Nat.cast_ofNat, hvalue] at hscaled
    exact hscaled

/-- The shortest digits of a double are within its reach. -/
theorem roundsTo_shortest (tie : Tie) (h : IsDouble mantissa exponent) (hne : mantissa ≠ 0) :
    RoundsTo (shortest Width.double tie mantissa exponent).value mantissa exponent := by
  have hmagnitude := magnitude_le hne h.least
  have hunit := two_zpow_pos exponent
  have htop : (mantissa : ℚ) < 2 ^ 53 := by exact_mod_cast h.lt
  have hfine : (mantissa : ℚ) * 10 ^ (-16 : ℤ) < 1 / 2 + reachBelow mantissa exponent := by
    rw [reachBelow]
    split
    · next hnarrow =>
      rw [hnarrow.1]
      norm_num
    · norm_num
      linarith
  refine roundsTo_firstGrid hne ?_ rfl
  calc (10 : ℚ) ^ (magnitude mantissa exponent - 17)
      = 10 ^ (magnitude mantissa exponent - 1) * 10 ^ (-16 : ℤ) := by
        rw [← ten_zpow_add]
        congr 1
        omega
    _ ≤ mantissa * 2 ^ exponent * 10 ^ (-16 : ℤ) :=
        mul_le_mul_of_nonneg_right hmagnitude (ten_zpow_pos _).le
    _ = mantissa * 10 ^ (-16 : ℤ) * 2 ^ exponent := mul_right_comm _ _ _
    _ < (1 / 2 + reachBelow mantissa exponent) * 2 ^ exponent :=
        mul_lt_mul_of_pos_right hfine hunit

end Decimal
end SvgCompact
