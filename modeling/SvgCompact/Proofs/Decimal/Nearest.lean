import Mathlib.Algebra.Order.Field.Power
import Mathlib.Tactic.Linarith
import Mathlib.Tactic.NormNum
import Mathlib.Tactic.Positivity
import Mathlib.Tactic.Ring
import SvgCompact.Proofs.Decimal.Bits

/-!
Rounding to the nearest double.

The arithmetic on doubles cuts the exact result off and keeps two bits of what was cut.
These bits say on which side of the middle between two doubles the exact result lies, so
that rounding gives the double within whose reach it is.
-/

namespace SvgCompact
namespace Decimal
open Float.Model Float.Model.UnpackedFloat

/-- What a mantissa with its round and sticky bits says about a number. -/
structure Represents (em : ExtendedMantissa) (v : ℚ) : Prop where
  le : (em.mantissa : ℚ) ≤ v
  lt : v < em.mantissa + 1
  round : em.roundBit = true ↔ (em.mantissa : ℚ) + 1 / 2 ≤ v
  sticky : em.stickyBit = true ↔ v ≠ em.mantissa ∧ v ≠ em.mantissa + 1 / 2

variable {em : ExtendedMantissa} {v : ℚ}

theorem Represents.inexact (h : Represents em v) :
    (em.roundBit || em.stickyBit) = true ↔ v ≠ em.mantissa := by
  rw [Bool.or_eq_true, h.round, h.sticky]
  constructor
  · rintro (hround | hsticky)
    · intro heq
      linarith
    · exact hsticky.1
  · intro hne
    by_cases htie : v = em.mantissa + 1 / 2
    · exact .inl htie.ge
    · exact .inr ⟨hne, htie⟩

theorem Represents.shiftRightOne (h : Represents em v) : Represents em.shiftRightOne (v / 2) := by
  have hsplit : (em.mantissa : ℚ) = 2 * (em.mantissa / 2 : ℕ) + (em.mantissa % 2 : ℕ) := by
    exact_mod_cast (Nat.div_add_mod em.mantissa 2).symm
  have hle := h.le
  have hlt := h.lt
  have hsticky : em.shiftRightOne.stickyBit = true ↔ v ≠ em.mantissa := h.inexact
  have hround : em.shiftRightOne.roundBit = true ↔ em.mantissa % 2 = 1 := by
    simp [ExtendedMantissa.shiftRightOne]
  have hmantissa : (em.shiftRightOne.mantissa : ℚ) = (em.mantissa / 2 : ℕ) := rfl
  rcases Nat.mod_two_eq_zero_or_one em.mantissa with hpar | hpar
  · rw [hpar, Nat.cast_zero, add_zero] at hsplit
    refine ⟨by linarith, by linarith, ?_, ?_⟩
    · rw [hround, hpar, hmantissa]
      exact iff_of_false (by decide) (by intro; linarith)
    · rw [hsticky, hmantissa]
      constructor
      · exact fun hne => ⟨fun heq => hne (by linarith), fun heq => by linarith⟩
      · exact fun hne heq => hne.1 (by linarith)
  · rw [hpar, Nat.cast_one] at hsplit
    refine ⟨by linarith, by linarith, ?_, ?_⟩
    · rw [hround, hpar, hmantissa]
      exact iff_of_true rfl (by linarith)
    · rw [hsticky, hmantissa]
      constructor
      · exact fun hne => ⟨fun heq => by linarith, fun heq => hne (by linarith)⟩
      · exact fun hne heq => hne.2 (by linarith)

theorem Represents.shiftRight (h : Represents em v) (n : ℕ) :
    Represents (em >>> n) (v / 2 ^ n) := by
  change Represents (n.repeat ExtendedMantissa.shiftRightOne em) _
  induction n with
  | zero => simpa [Nat.repeat] using h
  | succ n ih =>
    rw [Nat.repeat, pow_succ, ← div_div]
    exact ih.shiftRightOne

/-- Rounding takes the nearest integer, and of two at the same distance the even one. -/
theorem Represents.roundedMantissa_eq (h : Represents em v) {n : ℕ} (hlow : (n : ℚ) - 1 / 2 ≤ v)
    (hhigh : v ≤ n + 1 / 2) (htie : v = n - 1 / 2 ∨ v = n + 1 / 2 → n % 2 = 0) :
    em.roundedMantissa = n := by
  obtain ⟨hle, hlt, hround, hsticky⟩ := h
  obtain ⟨mantissa, roundBit, stickyBit⟩ := em
  simp only at hle hlt hround hsticky
  have hcases : n = mantissa ∨ n = mantissa + 1 := by
    have hbelow : (n : ℚ) < (mantissa + 2 : ℕ) := by
      push_cast
      linarith
    have habove : (mantissa : ℚ) < (n + 1 : ℕ) := by
      push_cast
      linarith
    have hbelow' : n < mantissa + 2 := by exact_mod_cast hbelow
    have habove' : mantissa < n + 1 := by exact_mod_cast habove
    omega
  rcases hcases with rfl | rfl
  · cases roundBit with
    | false => cases stickyBit <;> rfl
    | true =>
      have heq : v = n + 1 / 2 := le_antisymm hhigh (hround.1 rfl)
      have hexact : stickyBit = false := by
        rw [Bool.eq_false_iff]
        exact fun hs => (hsticky.1 hs).2 heq
      rw [hexact]
      change n + n % 2 = n
      rw [htie (.inr heq)]
      rfl
  · push_cast at hlow htie
    have hbit : roundBit = true := hround.2 (by linarith)
    rw [hbit]
    cases hs : stickyBit with
    | true => rfl
    | false =>
      have heq : v = mantissa + 1 / 2 := by
        by_contra hne
        have hne' : v ≠ mantissa := by
          intro heq
          linarith
        rw [hsticky.2 ⟨hne', hne⟩] at hs
        cases hs
      have hodd := htie (.inl (by rw [heq]; ring))
      change mantissa + mantissa % 2 = mantissa + 1
      omega

theorem represents_exact (n : ℕ) :
    Represents (ExtendedMantissa.ofMantissaAndAccuracy n .exact) n where
  le := le_refl _
  lt := lt_add_one _
  round := iff_of_false Bool.false_ne_true (not_le.2 (lt_add_of_pos_right _ one_half_pos))
  sticky := iff_of_false Bool.false_ne_true fun h => h.1 rfl

theorem represents_inexact {q : ℕ} {f : ℚ} (hpos : 0 < f) (hlt : f < 1) {o : Ordering}
    (hlo : o = .lt ↔ f < 1 / 2) (heq : o = .eq ↔ f = 1 / 2) :
    Represents (ExtendedMantissa.ofMantissaAndAccuracy q (.inexact o)) (q + f) := by
  have hmantissa : (ExtendedMantissa.ofMantissaAndAccuracy q (.inexact o)).mantissa = q := by
    cases o <;> rfl
  have hround : (ExtendedMantissa.ofMantissaAndAccuracy q (.inexact o)).roundBit = true ↔
      ¬ o = .lt := by
    cases o <;> simp [ExtendedMantissa.ofMantissaAndAccuracy]
  have hsticky : (ExtendedMantissa.ofMantissaAndAccuracy q (.inexact o)).stickyBit = true ↔
      ¬ o = .eq := by
    cases o <;> simp [ExtendedMantissa.ofMantissaAndAccuracy]
  constructor
  · rw [hmantissa]
    linarith
  · rw [hmantissa]
    linarith
  · rw [hmantissa, hround, hlo, not_lt, add_le_add_iff_left]
  · rw [hmantissa, hsticky, heq]
    constructor
    · exact fun hne => ⟨by linarith, fun h => hne (by linarith)⟩
    · exact fun hne h => hne.2 (by rw [h])

/-- A quotient is represented by its integer part and by how the rest compares with half
the divisor. -/
theorem represents_quotient (n : ℕ) {d : ℕ} (hd : 0 < d) :
    Represents (ExtendedMantissa.ofMantissaAndAccuracy (n / d) (accuracyOfFraction (n % d) d))
      ((n : ℚ) / d) := by
  have hpos : (0 : ℚ) < d := by exact_mod_cast hd
  have hsplit : (n : ℚ) / d = (n / d : ℕ) + ((n % d : ℕ) : ℚ) / d := by
    have hn : (n : ℚ) = d * (n / d : ℕ) + (n % d : ℕ) := by
      exact_mod_cast (Nat.div_add_mod n d).symm
    rw [div_eq_iff hpos.ne', add_mul, div_mul_cancel₀ _ hpos.ne']
    linarith
  have hrest : ((n % d : ℕ) : ℚ) < d := by exact_mod_cast Nat.mod_lt n hd
  rw [hsplit, accuracyOfFraction]
  generalize n % d = r at hrest
  split
  · next hzero =>
    rw [hzero, Nat.cast_zero, zero_div, add_zero]
    exact represents_exact _
  · next hne =>
    have hr : (0 : ℚ) < r := by exact_mod_cast Nat.pos_of_ne_zero hne
    refine represents_inexact (div_pos hr hpos) ((div_lt_one hpos).2 hrest) ?_ ?_
    · rw [Nat.compare_eq_lt, div_lt_iff₀ hpos]
      constructor
      · intro h
        have : (2 * r : ℚ) < d := by exact_mod_cast h
        linarith
      · intro h
        have : (2 * r : ℚ) < d := by linarith
        exact_mod_cast this
    · rw [Nat.compare_eq_eq, div_eq_iff hpos.ne']
      constructor
      · intro h
        have : (2 * r : ℚ) = d := by exact_mod_cast h
        linarith
      · intro h
        have : (2 * r : ℚ) = d := by linarith
        exact_mod_cast this

/-! ## The exponent of the result -/

theorem targetExponent_eq (total : ℤ) :
    Format.binary64.targetExponent total = max (total - 53) (-1074) := rfl

theorem two_zpow_pos (k : ℤ) : (0 : ℚ) < 2 ^ k := zpow_pos two_pos k

theorem two_zpow_le {j k : ℤ} (h : j ≤ k) : (2 : ℚ) ^ j ≤ 2 ^ k :=
  zpow_le_zpow_right₀ one_le_two h

theorem two_zpow_add (j k : ℤ) : (2 : ℚ) ^ (j + k) = 2 ^ j * 2 ^ k :=
  zpow_add₀ two_ne_zero j k

theorem zpow_mul_pow_toNat {b : ℚ} (hb : b ≠ 0) (k : ℤ) : b ^ k * b ^ (-k).toNat = b ^ k.toNat := by
  rw [← zpow_natCast, ← zpow_natCast, ← zpow_add₀ hb]
  congr 1
  omega

/-- Where the last place of a number lies that is known up to `2 ^ k`. -/
theorem targetExponent_spec {n : ℕ} {k t : ℤ}
    (ht : Format.binary64.targetExponent (totalExponent n k) = t)
    (hk : k ≤ t) (hle : (n : ℚ) ≤ v / 2 ^ k) (hlt : v / 2 ^ k < n + 1) :
    -1074 ≤ t ∧ v < 2 ^ (t + 53) ∧ (t = -1074 ∨ 2 ^ (t + 52) ≤ v) := by
  have hk0 := two_zpow_pos k
  rw [le_div_iff₀ hk0] at hle
  rw [div_lt_iff₀ hk0] at hlt
  rw [targetExponent_eq, totalExponent] at ht
  have hupper : (n : ℚ) + 1 ≤ 2 ^ (n.log2 + 1 : ℤ) := by
    have : n + 1 ≤ 2 ^ (n.log2 + 1) := Nat.lt_log2_self
    exact_mod_cast this
  refine ⟨by omega, ?_, ?_⟩
  · calc v < (n + 1) * 2 ^ k := hlt
      _ ≤ 2 ^ (n.log2 + 1 : ℤ) * 2 ^ k := by gcongr
      _ = 2 ^ (n.log2 + 1 + k : ℤ) := (two_zpow_add _ _).symm
      _ ≤ 2 ^ (t + 53) := two_zpow_le (by omega)
  · by_cases hleast : t = -1074
    · exact .inl hleast
    · have hn : n ≠ 0 := by
        rintro rfl
        simp at ht
        omega
      have hlower : (2 : ℚ) ^ (n.log2 : ℤ) ≤ n := by
        have : 2 ^ n.log2 ≤ n := Nat.log2_self_le hn
        exact_mod_cast this
      right
      calc (2 : ℚ) ^ (t + 52) = 2 ^ (n.log2 + k : ℤ) := by congr 1; omega
        _ = 2 ^ (n.log2 : ℤ) * 2 ^ k := two_zpow_add _ _
        _ ≤ n * 2 ^ k := by gcongr
        _ ≤ v := hle

/-! ## The numbers that round to a double -/

/-- How far the numbers that round to a double reach below it, in units of its last
place.  Below a power of two the next double is only half as far away. -/
def reachBelow (mantissa : ℕ) (exponent : ℤ) : ℚ :=
  if mantissa = 2 ^ 52 ∧ -1074 < exponent then 1 / 4 else 1 / 2

/-- Whether a number is within the reach of a double; the ends belong to the double
whose mantissa is even. -/
structure RoundsTo (v : ℚ) (mantissa : ℕ) (exponent : ℤ) : Prop where
  low : (mantissa - reachBelow mantissa exponent) * 2 ^ exponent ≤ v
  high : v ≤ (mantissa + 1 / 2) * 2 ^ exponent
  tie : v = (mantissa - reachBelow mantissa exponent) * 2 ^ exponent ∨
    v = (mantissa + 1 / 2) * 2 ^ exponent → mantissa % 2 = 0

variable {mantissa : ℕ} {exponent : ℤ}

theorem reachBelow_le (mantissa : ℕ) (exponent : ℤ) : reachBelow mantissa exponent ≤ 1 / 2 := by
  rw [reachBelow]
  split <;> norm_num

/-- The last place of a number is that of the double it rounds to, or the one below where
the double is a power of two. -/
theorem RoundsTo.place (h : IsDouble mantissa exponent) (hv : RoundsTo v mantissa exponent) {t : ℤ}
    (hleast : -1074 ≤ t) (hlt : v < 2 ^ (t + 53)) (hge : t = -1074 ∨ 2 ^ (t + 52) ≤ v) :
    t = exponent ∨ t = exponent - 1 ∧ mantissa = 2 ^ 52 ∧ -1074 < exponent := by
  have hunit := two_zpow_pos exponent
  have hreach := reachBelow_le mantissa exponent
  rcases lt_trichotomy t exponent with hbelow | heq | habove
  · right
    have hfull : 2 ^ 52 ≤ mantissa := h.full.resolve_right (by omega)
    have hsmall : (mantissa : ℚ) - reachBelow mantissa exponent < 2 ^ 52 := by
      refine lt_of_mul_lt_mul_right ?_ hunit.le
      calc ((mantissa : ℚ) - reachBelow mantissa exponent) * 2 ^ exponent ≤ v := hv.low
        _ < 2 ^ (t + 53) := hlt
        _ ≤ 2 ^ (52 + exponent) := two_zpow_le (by omega)
        _ = 2 ^ 52 * 2 ^ exponent := two_zpow_add _ _
    have hpower : mantissa = 2 ^ 52 := by
      have hq : (mantissa : ℚ) < (2 ^ 52 + 1 : ℕ) := by
        push_cast
        linarith
      have hn : mantissa < 2 ^ 52 + 1 := by exact_mod_cast hq
      omega
    refine ⟨?_, hpower, by omega⟩
    by_contra hne
    have hfar : (mantissa : ℚ) - reachBelow mantissa exponent < 2 ^ 51 := by
      refine lt_of_mul_lt_mul_right ?_ hunit.le
      calc ((mantissa : ℚ) - reachBelow mantissa exponent) * 2 ^ exponent ≤ v := hv.low
        _ < 2 ^ (t + 53) := hlt
        _ ≤ 2 ^ (51 + exponent) := two_zpow_le (by omega)
        _ = 2 ^ 51 * 2 ^ exponent := two_zpow_add _ _
    rw [hpower] at hfar hreach
    push_cast at hfar
    linarith
  · exact .inl heq
  · have hleast' := h.least
    have hbig : (2 : ℚ) ^ 53 ≤ mantissa + 1 / 2 := by
      refine le_of_mul_le_mul_right ?_ hunit
      calc (2 : ℚ) ^ 53 * 2 ^ exponent = 2 ^ (53 + exponent) := (two_zpow_add _ _).symm
        _ ≤ 2 ^ (t + 52) := two_zpow_le (by omega)
        _ ≤ v := hge.resolve_left (by omega)
        _ ≤ (mantissa + 1 / 2) * 2 ^ exponent := hv.high
    have hq : (2 ^ 53 : ℕ) < (mantissa : ℚ) + 1 := by
      push_cast
      linarith
    have hn : 2 ^ 53 < mantissa + 1 := by exact_mod_cast hq
    exact absurd h.lt (by omega)

/-! ## Rounding -/

theorem shiftToTargetExponent_small (hlt : mantissa < 2 ^ 53) (hleast : -1074 ≤ exponent) :
    shiftToTargetExponent Format.binary64 mantissa exponent .exact =
      (⟨mantissa, false, false⟩, exponent) := by
  have hlog : mantissa.log2 ≤ 52 := by
    by_cases hzero : mantissa = 0
    · simp [hzero]
    · have := (Nat.log2_lt hzero).2 hlt
      omega
  have hshift :
      (Format.binary64.targetExponent (totalExponent mantissa exponent) - exponent).toNat = 0 := by
    rw [targetExponent_eq, totalExponent]
    omega
  simp only [shiftToTargetExponent, shiftToExponent, hshift, Nat.cast_zero, add_zero]
  rfl

theorem shiftToTargetExponent_carry (hleast : -1074 ≤ exponent) :
    shiftToTargetExponent Format.binary64 (2 ^ 53) exponent .exact =
      (⟨2 ^ 52, false, false⟩, exponent + 1) := by
  have hlog : (2 ^ 53 : ℕ).log2 = 53 := Nat.log2_two_pow
  have hshift :
      (Format.binary64.targetExponent (totalExponent (2 ^ 53) exponent) - exponent).toNat = 1 := by
    rw [targetExponent_eq, totalExponent, hlog]
    omega
  simp only [shiftToTargetExponent, shiftToExponent, hshift]
  rfl

theorem RoundsTo.roundedMantissa (hv : RoundsTo v mantissa exponent)
    (hrep : Represents em (v / 2 ^ exponent)) : em.roundedMantissa = mantissa := by
  have hunit := two_zpow_pos exponent
  have hreach := reachBelow_le mantissa exponent
  have hlow : (mantissa : ℚ) - reachBelow mantissa exponent ≤ v / 2 ^ exponent :=
    (le_div_iff₀ hunit).2 hv.low
  refine hrep.roundedMantissa_eq (by linarith) ((div_le_iff₀ hunit).2 hv.high) ?_
  rintro (hend | hend)
  · have hhalf : reachBelow mantissa exponent = 1 / 2 := by linarith
    exact hv.tie (.inl (by rw [hhalf]; exact (div_eq_iff hunit.ne').1 hend))
  · exact hv.tie (.inr ((div_eq_iff hunit.ne').1 hend))

/-- Below a power of two the mantissa is rounded up to one bit more. -/
theorem RoundsTo.roundedMantissa_carry (hv : RoundsTo v (2 ^ 52) exponent)
    (hexponent : -1074 < exponent) (hlt : v < 2 ^ (exponent - 1 + 53))
    (hrep : Represents em (v / 2 ^ (exponent - 1))) : em.roundedMantissa = 2 ^ 53 := by
  have hunit := two_zpow_pos (exponent - 1)
  have hdouble : (2 : ℚ) ^ exponent = 2 * 2 ^ (exponent - 1) := by
    rw [← zpow_one_add₀ two_ne_zero]
    congr 1
    omega
  have hlow := hv.low
  rw [reachBelow, if_pos ⟨rfl, hexponent⟩, hdouble] at hlow
  have hbelow : v / 2 ^ (exponent - 1) < 2 ^ 53 := by
    rw [div_lt_iff₀ hunit, ← zpow_natCast, ← two_zpow_add]
    refine lt_of_lt_of_eq hlt ?_
    congr 1
    push_cast
    omega
  have habove : (2 : ℚ) ^ 53 - 1 / 2 ≤ v / 2 ^ (exponent - 1) := by
    rw [le_div_iff₀ hunit]
    push_cast at hlow
    linarith
  refine hrep.roundedMantissa_eq ?_ ?_ fun _ => rfl
  · push_cast
    exact habove
  · push_cast
    linarith

/-- Whether a number is rounded at a place, and what is known of it there. -/
structure IsRoundedAt (v : ℚ) (em : ExtendedMantissa) (t : ℤ) : Prop where
  represents : Represents em (v / 2 ^ t)
  least : -1074 ≤ t
  below : v < 2 ^ (t + 53)
  above : t = -1074 ∨ 2 ^ (t + 52) ≤ v

theorem exists_isRoundedAt {n : ℕ} {k : ℤ} {accuracy : Accuracy}
    (hrep : Represents (ExtendedMantissa.ofMantissaAndAccuracy n accuracy) (v / 2 ^ k))
    (hk : k ≤ Format.binary64.targetExponent (totalExponent n k)) :
    ∃ em t, shiftToTargetExponent Format.binary64 n k accuracy = (em, t) ∧
      IsRoundedAt v em t := by
  obtain ⟨t, ht⟩ : ∃ t, Format.binary64.targetExponent (totalExponent n k) = t := ⟨_, rfl⟩
  rw [ht] at hk
  have hmantissa : (ExtendedMantissa.ofMantissaAndAccuracy n accuracy).mantissa = n := by
    cases accuracy with
    | exact => rfl
    | inexact o => cases o <;> rfl
  have hle := hrep.le
  have hlt := hrep.lt
  rw [hmantissa] at hle hlt
  obtain ⟨hleast, hbelow, habove⟩ := targetExponent_spec ht hk hle hlt
  refine ⟨ExtendedMantissa.ofMantissaAndAccuracy n accuracy >>> (t - k).toNat, t, ?_, ?_, hleast,
    hbelow, habove⟩
  · simp only [shiftToTargetExponent, shiftToExponent, ht, Prod.mk.injEq, true_and]
    omega
  · have hplace : v / 2 ^ t = v / 2 ^ k / 2 ^ (t - k).toNat := by
      rw [div_div, ← zpow_natCast, ← two_zpow_add]
      congr 2
      omega
    rw [hplace]
    exact hrep.shiftRight _

/-- Rounding a number within the reach of a double gives the double. -/
theorem roundWithAccuracy_eq (h : IsDouble mantissa exponent) (hv : RoundsTo v mantissa exponent)
    {n : ℕ} {k : ℤ} {accuracy : Accuracy}
    (hrep : Represents (ExtendedMantissa.ofMantissaAndAccuracy n accuracy) (v / 2 ^ k))
    (hk : k ≤ Format.binary64.targetExponent (totalExponent n k)) (negative : Bool) :
    roundWithAccuracy Format.binary64 (signOf negative) n k accuracy =
      (Binary.finite negative mantissa exponent).unpacked := by
  obtain ⟨em, t, hfirst, hrep', hleast, hbelow, habove⟩ := exists_isRoundedAt hrep hk
  rcases hv.place h hleast hbelow habove with rfl | ⟨rfl, rfl, hexponent⟩
  · have hrounded := hv.roundedMantissa hrep'
    simp only [roundWithAccuracy, hfirst, hrounded, shiftToTargetExponent_small h.lt h.least]
    rfl
  · have hrounded := hv.roundedMantissa_carry hexponent hbelow hrep'
    have hcarry := shiftToTargetExponent_carry hleast
    rw [sub_add_cancel] at hcarry
    simp only [roundWithAccuracy, hfirst, hrounded, hcarry]
    rfl

end Decimal
end SvgCompact
