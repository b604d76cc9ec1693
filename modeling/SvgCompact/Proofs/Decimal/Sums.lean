import SvgCompact.Proofs.Decimal.Order

/-!
Sums and products of doubles.

A sum is rounded to a multiple of the last place that its size leaves room for.  A greater
number is rounded to the same place, where rounding to integers keeps the order, or to a
coarser one; then the two results lie on different sides of a power of two.

The mantissas of factors are multiplied without loss, and the product is rounded like a sum.
What is a double already is rounded to itself, so that a factor of one changes nothing and a
factor of zero leaves nothing to add.
-/

namespace SvgCompact
namespace Decimal

open Float.Model Float.Model.UnpackedFloat
open Double

variable {em em' : ExtendedMantissa} {v w q r : ℚ} {t t' : ℤ} {mantissa : ℕ} {exponent : ℤ}

/-! ## Rounding to integers -/

theorem roundedMantissa_eq (em : ExtendedMantissa) :
    em.roundedMantissa =
      em.mantissa + if em.roundBit ∧ (em.stickyBit ∨ em.mantissa % 2 = 1) then 1 else 0 := by
  obtain ⟨mantissa, roundBit, stickyBit⟩ := em
  cases roundBit <;> cases stickyBit <;>
    simp [ExtendedMantissa.roundedMantissa, ExtendedMantissa.accuracy, Accuracy.roundToNearestEven]
  split_ifs <;> omega

theorem roundedMantissa_le (h : Represents em v) {n : ℕ} (hv : v < n) : em.roundedMantissa ≤ n := by
  have hlt : (em.mantissa : ℚ) < n := h.le.trans_lt hv
  have hlt' : em.mantissa < n := by exact_mod_cast hlt
  rw [roundedMantissa_eq]
  split_ifs <;> omega

theorem le_roundedMantissa (h : Represents em v) {n : ℕ} (hv : n ≤ v) : n ≤ em.roundedMantissa := by
  have hlt : (n : ℚ) < (em.mantissa + 1 : ℕ) := by
    push_cast
    exact hv.trans_lt h.lt
  have hlt' : n < em.mantissa + 1 := by exact_mod_cast hlt
  rw [roundedMantissa_eq]
  omega

theorem roundedMantissa_mono (h : Represents em v) (h' : Represents em' w) (hle : v ≤ w) :
    em.roundedMantissa ≤ em'.roundedMantissa := by
  have hlt : (em.mantissa : ℚ) < (em'.mantissa + 1 : ℕ) := by
    push_cast
    exact (h.le.trans hle).trans_lt h'.lt
  have hmantissa : em.mantissa < em'.mantissa + 1 := by exact_mod_cast hlt
  rw [roundedMantissa_eq, roundedMantissa_eq]
  rcases Nat.lt_or_eq_of_le (Nat.le_of_lt_succ hmantissa) with hless | hsame
  · split_ifs <;> omega
  · -- What lies above the middle, or in the middle and is rounded up, leaves no less to `w`.
    have hup : em.roundBit ∧ (em.stickyBit ∨ em.mantissa % 2 = 1) →
        em'.roundBit ∧ (em'.stickyBit ∨ em'.mantissa % 2 = 1) := by
      rintro ⟨hround, hrest⟩
      have hhalf := h.round.1 hround
      rw [hsame] at hhalf hrest
      refine ⟨h'.round.2 (hhalf.trans hle), hrest.imp (fun hsticky => ?_) id⟩
      have hne := (h.sticky.1 hsticky).2
      rw [hsame] at hne
      have hgt := (lt_of_le_of_ne hhalf hne.symm).trans_le hle
      exact h'.sticky.2 ⟨by linarith, hgt.ne'⟩
    split_ifs with hup₁ hup₂
    · omega
    · exact absurd (hup hup₁) hup₂
    · omega
    · omega

/-! ## Rounding to doubles -/

namespace IsRoundedAt

theorem roundedMantissa_le (h : IsRoundedAt v em t) : em.roundedMantissa ≤ 2 ^ 53 := by
  refine Decimal.roundedMantissa_le h.represents ?_
  have hbelow := h.below
  rw [add_comm, two_zpow_add] at hbelow
  rw [div_lt_iff₀ (two_zpow_pos t)]
  exact_mod_cast hbelow

theorem full (h : IsRoundedAt v em t) : 2 ^ 52 ≤ em.roundedMantissa ∨ t = -1074 := by
  refine h.above.symm.imp_left fun habove => le_roundedMantissa h.represents ?_
  rw [add_comm, two_zpow_add] at habove
  rw [le_div_iff₀ (two_zpow_pos t)]
  exact_mod_cast habove

theorem le (h : IsRoundedAt v em t) (h' : IsRoundedAt w em' t') (hle : v ≤ w) :
    (em.roundedMantissa * 2 ^ t : ℚ) ≤ em'.roundedMantissa * 2 ^ t' := by
  have hunit := two_zpow_pos t
  have hunit' := two_zpow_pos t'
  rcases lt_trichotomy t t' with hlt | rfl | hgt
  · have hlow : (em.roundedMantissa : ℚ) ≤ 2 ^ (53 : ℤ) := by exact_mod_cast h.roundedMantissa_le
    have hfull := h'.full.resolve_right (by have := h.least; omega)
    have hhigh : (2 : ℚ) ^ (52 : ℤ) ≤ em'.roundedMantissa := by exact_mod_cast hfull
    calc (em.roundedMantissa * 2 ^ t : ℚ) ≤ 2 ^ (53 : ℤ) * 2 ^ t :=
          mul_le_mul_of_nonneg_right hlow hunit.le
      _ = 2 ^ (53 + t) := (two_zpow_add _ _).symm
      _ ≤ 2 ^ (52 + t') := two_zpow_le (by omega)
      _ = 2 ^ (52 : ℤ) * 2 ^ t' := two_zpow_add _ _
      _ ≤ em'.roundedMantissa * 2 ^ t' := mul_le_mul_of_nonneg_right hhigh hunit'.le
  · refine mul_le_mul_of_nonneg_right ?_ hunit.le
    exact_mod_cast roundedMantissa_mono h.represents h'.represents
      (div_le_div_of_nonneg_right hle hunit.le)
  · have hcross : (2 : ℚ) ^ (t + 52) < 2 ^ (t' + 53) :=
      ((h.above.resolve_left (by have := h'.least; omega)).trans hle).trans_lt h'.below
    exact absurd (two_zpow_le (by omega)) hcross.not_ge

end IsRoundedAt

/-- Whether rounding takes a number to another.  Both sides of zero are treated alike. -/
def Rounds (v q : ℚ) : Prop :=
  ∃ em t, 0 ≤ v ∧ IsRoundedAt v em t ∧ q = em.roundedMantissa * 2 ^ t ∨
    v < 0 ∧ IsRoundedAt (-v) em t ∧ q = -(em.roundedMantissa * 2 ^ t)

theorem Rounds.le (h : Rounds v q) (h' : Rounds w r) (hle : v ≤ w) : q ≤ r := by
  have hnonneg (em : ExtendedMantissa) (t : ℤ) : (0 : ℚ) ≤ em.roundedMantissa * 2 ^ t :=
    mul_nonneg (Nat.cast_nonneg _) (two_zpow_pos t).le
  obtain ⟨em, t, ⟨hv, hplace, rfl⟩ | ⟨hv, hplace, rfl⟩⟩ := h
  · obtain ⟨em', t', ⟨-, hplace', rfl⟩ | ⟨hw, -, -⟩⟩ := h'
    · exact hplace.le hplace' hle
    · exact absurd (hv.trans hle) hw.not_ge
  · obtain ⟨em', t', ⟨-, -, rfl⟩ | ⟨-, hplace', rfl⟩⟩ := h'
    · exact (neg_nonpos.2 (hnonneg em t)).trans (hnonneg em' t')
    · exact neg_le_neg (hplace'.le hplace (neg_le_neg hle))

/-- Doubles are rounded to themselves. -/
theorem isRoundedAt_size (h : IsDouble mantissa exponent) :
    IsRoundedAt (mantissa * 2 ^ exponent) ⟨mantissa, false, false⟩ exponent where
  represents := by
    rw [mul_div_cancel_right₀ _ (two_zpow_pos exponent).ne']
    exact represents_exact mantissa
  least := h.least
  below := by
    rw [add_comm, two_zpow_add]
    refine mul_lt_mul_of_pos_right ?_ (two_zpow_pos exponent)
    exact_mod_cast h.lt
  above := by
    refine h.full.symm.imp_right fun hfull => ?_
    rw [add_comm, two_zpow_add]
    refine mul_le_mul_of_nonneg_right ?_ (two_zpow_pos exponent).le
    exact_mod_cast hfull

/-- What unpacked numbers keep to before they are packed, which may overflow. -/
structure IsNormal (mantissa : ℕ) (exponent : ℤ) : Prop where
  lt : mantissa < 2 ^ 53
  least : -1074 ≤ exponent
  full : 2 ^ 52 ≤ mantissa ∨ exponent = -1074

/-- What an operation gives whose exact result is `v`. -/
inductive IsResult (v : ℚ) : UnpackedFloat → Prop
  | zero (s : Sign) (h : Rounds v 0) : IsResult v (.zero s)
  | finite (s : Sign) (m : ℕ) (e : ℤ) (hm : 0 < m) (hnormal : IsNormal m e)
      (h : Rounds v (signed s (m * 2 ^ e))) : IsResult v (.finite s m e hm)

theorem IsRoundedAt.rounds (h : IsRoundedAt v em t) (hv : 0 < v) (s : Sign) :
    Rounds (signed s v) (signed s (em.roundedMantissa * 2 ^ t)) := by
  cases s with
  | positive => exact ⟨em, t, .inl ⟨hv.le, h, rfl⟩⟩
  | negative =>
    refine ⟨em, t, .inr ⟨neg_neg_of_pos hv, ?_, rfl⟩⟩
    rw [signed, neg_neg]
    exact h

theorem isResult_roundWithAccuracy (hv : 0 < v) {n : ℕ} {k : ℤ} {accuracy : Accuracy}
    (hrep : Represents (ExtendedMantissa.ofMantissaAndAccuracy n accuracy) (v / 2 ^ k))
    (hk : k ≤ Format.binary64.targetExponent (totalExponent n k)) (s : Sign) :
    IsResult (signed s v) (roundWithAccuracy Format.binary64 s n k accuracy) := by
  obtain ⟨em, t, hfirst, hat⟩ := exists_isRoundedAt hrep hk
  obtain ⟨m, hm⟩ : ∃ m, em.roundedMantissa = m := ⟨_, rfl⟩
  have hrounds := hat.rounds hv s
  have hfull := hat.full
  have hmost := hat.roundedMantissa_le
  rw [hm] at hrounds hfull hmost
  rcases Nat.lt_or_eq_of_le hmost with hlt | rfl
  · simp only [roundWithAccuracy, hfirst, hm, shiftToTargetExponent_small hlt hat.least]
    split
    · next hzero =>
      refine .zero s ?_
      rwa [hzero, Nat.cast_zero, zero_mul, signed_zero] at hrounds
    · exact .finite s m t _ ⟨hlt, hat.least, hfull⟩ hrounds
  · simp only [roundWithAccuracy, hfirst, hm, shiftToTargetExponent_carry hat.least]
    have hdouble : ((2 ^ 53 : ℕ) : ℚ) * 2 ^ t = (2 ^ 52 : ℕ) * 2 ^ (t + 1) := by
      rw [two_zpow_add]
      push_cast
      ring
    rw [hdouble] at hrounds
    have hleast := hat.least
    exact .finite s (2 ^ 52) (t + 1) _ ⟨by decide, by omega, .inl (le_refl _)⟩ hrounds

theorem log2_shiftLeft {n : ℕ} (hn : 0 < n) (c : ℕ) : (n <<< c).log2 = n.log2 + c := by
  have hpos : 0 < 2 ^ c := Nat.two_pow_pos c
  rw [Nat.shiftLeft_eq, Nat.log2_eq_iff (Nat.mul_pos hn hpos).ne', Nat.pow_add, Nat.add_right_comm,
    Nat.pow_add]
  exact ⟨Nat.mul_le_mul_right _ (Nat.log2_self_le hn.ne'),
    Nat.mul_lt_mul_of_pos_right Nat.lt_log2_self hpos⟩

theorem isResult_round {n : ℕ} (hn : 0 < n) (k : ℤ) (s : Sign) :
    IsResult (signed s (n * 2 ^ k)) (UnpackedFloat.round Format.binary64 s n k) := by
  obtain ⟨c, hc⟩ : ∃ c, (k - Format.binary64.targetExponent (totalExponent n k)).toNat = c :=
    ⟨_, rfl⟩
  have hsize : (n * 2 ^ k : ℚ) / 2 ^ (k - c) = (n <<< c : ℕ) := by
    rw [div_eq_iff (two_zpow_pos _).ne', Nat.shiftLeft_eq]
    push_cast
    rw [mul_assoc, ← zpow_natCast, ← two_zpow_add]
    congr 2
    omega
  have hrep := represents_exact (n <<< c)
  rw [← hsize] at hrep
  simp only [UnpackedFloat.round, decreaseExponent, hc]
  refine isResult_roundWithAccuracy (size_pos hn k) hrep ?_ s
  rw [targetExponent_eq, totalExponent] at hc ⊢
  rw [log2_shiftLeft hn]
  omega

theorem rounds_zero : Rounds 0 0 := by
  have hdouble : IsDouble 0 (-1074) := ⟨by decide, by decide, by decide, .inr rfl⟩
  have hat := isRoundedAt_size hdouble
  rw [Nat.cast_zero, zero_mul] at hat
  exact ⟨_, _, .inl ⟨le_refl _, hat, (zero_mul _).symm⟩⟩

/-- A double is the result of what gives it exactly. -/
theorem isResult_place {u : UnpackedFloat} (hu : IsUnpacked u) (hfinite : u.isFinite = true) :
    IsResult (place u) u := by
  cases u with
  | notANumber => cases hfinite
  | infinity s => cases hfinite
  | zero s => exact .zero s rounds_zero
  | finite s m e hm =>
    exact .finite s m e hm ⟨hu.lt, hu.least, hu.full⟩
      ((isRoundedAt_size hu).rounds (size_pos hm e) s)

theorem isResult_normalize (a k : ℤ) (s : Sign) :
    IsResult (a * 2 ^ k) (UnpackedFloat.normalize Format.binary64 a k s) := by
  rw [UnpackedFloat.normalize]
  split
  · next hlt =>
    have hneg : a < 0 := compare_lt_iff_lt.1 hlt
    have hcast : ((-a).toNat : ℚ) = -a := by
      exact_mod_cast Int.toNat_of_nonneg (by omega)
    have hround := isResult_round (n := (-a).toNat) (by omega) k .negative
    rwa [hcast, signed, neg_mul, neg_neg] at hround
  · next heq =>
    refine .zero s ?_
    rw [compare_eq_iff_eq.1 heq, Int.cast_zero, zero_mul]
    exact rounds_zero
  · next hgt =>
    have hpos : 0 < a := compare_gt_iff_gt.1 hgt
    have hcast : (a.toNat : ℚ) = a := by
      exact_mod_cast Int.toNat_of_nonneg hpos.le
    have hround := isResult_round (n := a.toNat) (by omega) k .positive
    rwa [hcast, signed] at hround

theorem aligned (s : Sign) (mantissa : ℕ) {e e' : ℤ} (hle : e' ≤ e) :
    ((s.apply (mantissa <<< (e - e').toNat : ℕ) : ℤ) : ℚ) * 2 ^ e' =
      signed s (mantissa * 2 ^ e) := by
  have hsize : ((mantissa <<< (e - e').toNat : ℕ) : ℚ) * 2 ^ e' = mantissa * 2 ^ e := by
    rw [Nat.shiftLeft_eq]
    push_cast
    rw [mul_assoc, ← zpow_natCast, ← two_zpow_add]
    congr 2
    omega
  cases s with
  | positive => exact_mod_cast hsize
  | negative =>
    rw [signed, ← hsize, Sign.apply, Int.cast_neg, Int.cast_natCast, neg_mul]

theorem isResult_add {u p : UnpackedFloat} (hu : IsUnpacked u) (hp : IsUnpacked p)
    (hfinite : u.isFinite = true) (hpfinite : p.isFinite = true) :
    IsResult (place u + place p) (u.add Format.binary64 p) := by
  cases u with
  | notANumber => cases hfinite
  | infinity s => cases hfinite
  | zero s =>
    have hplace := isResult_place hp hpfinite
    rw [place, zero_add]
    cases p with
    | notANumber => cases hpfinite
    | infinity t => cases hpfinite
    | zero t =>
      rw [UnpackedFloat.add]
      split
      · exact .zero s rounds_zero
      · exact .zero .positive rounds_zero
    | finite t m e hm => exact hplace
  | finite s m e hm =>
    cases p with
    | notANumber => cases hpfinite
    | infinity t => cases hpfinite
    | zero t =>
      have hplace := isResult_place hu hfinite
      have hzero : place (.zero t) = 0 := rfl
      rwa [hzero, add_zero]
    | finite t m' e' hm' =>
      have hsum := isResult_normalize
        (s.apply (m <<< (e - min e e').toNat : ℕ) + t.apply (m' <<< (e' - min e e').toNat : ℕ))
        (min e e') .positive
      rw [Int.cast_add, add_mul, aligned s m (min_le_left e e'), aligned t m' (min_le_right e e')]
        at hsum
      exact hsum

end Decimal

namespace Double

open Float.Model Float.Model.UnpackedFloat
open Decimal

variable {v : ℚ} {u p : UnpackedFloat} {x y : Float}

/-! ## Packing -/

theorem number_packed_infinity (s : Sign) :
    (Float.ofModel (Float.Model.pack (.infinity s))).isNaN = false ∧
      number (Float.ofModel (Float.Model.pack (.infinity s))) = signed s limit := by
  cases s <;> exact ⟨rfl, rfl⟩

/-- Results that are too great become infinities. -/
def clamp (q : ℚ) : ℚ := -limit ⊔ limit ⊓ q

theorem clamp_mono {q r : ℚ} (h : q ≤ r) : clamp q ≤ clamp r :=
  sup_le_sup_left (inf_le_inf_left _ h) _

theorem clamp_of_le {q : ℚ} (hlow : -limit ≤ q) (hhigh : q ≤ limit) : clamp q = q := by
  rw [clamp, inf_eq_right.2 hhigh, sup_eq_right.2 hlow]

theorem clamp_signed (s : Sign) {q : ℚ} (hq : limit ≤ q) : clamp (signed s q) = signed s limit := by
  have hlimit := limit_pos
  cases s with
  | positive => rw [clamp, signed, signed, inf_eq_left.2 hq, sup_eq_right.2 (by linarith)]
  | negative =>
    rw [clamp, signed, signed, inf_eq_right.2 (by linarith), sup_eq_left.2 (by linarith)]

theorem unpack_pack (hu : IsUnpacked u) (hfinite : u.isFinite = true) :
    (Float.ofModel (Float.Model.pack u)).toModel.unpack = u := by
  cases u with
  | notANumber => cases hfinite
  | infinity s => cases hfinite
  | zero s => cases s <;> rfl
  | finite s m e hm =>
    obtain ⟨negative, rfl⟩ : ∃ negative, s = signOf negative := by
      cases s
      · exact ⟨true, rfl⟩
      · exact ⟨false, rfl⟩
    have hunpacked : (Binary.finite negative m e).unpacked = .finite (signOf negative) m e hm := by
      rw [Binary.unpacked, dif_neg hm.ne']
    have hpack := unpack_toModel (Binary.finite negative m e).toFloat
    rwa [ofFloat_toFloat hu, Binary.toFloat, hunpacked] at hpack

theorem isNaN_of_isFinite (hfinite : u.isFinite = true) : u.isNaN = false := by
  cases u with
  | notANumber => cases hfinite
  | _ => rfl

theorem number_pack (hu : IsUnpacked u) (hfinite : u.isFinite = true) :
    (Float.ofModel (Float.Model.pack u)).isNaN = false ∧
      number (Float.ofModel (Float.Model.pack u)) = clamp (place u) := by
  have hunpack := unpack_pack hu hfinite
  constructor
  · have hmodel : (Float.ofModel (Float.Model.pack u)).isNaN =
        (Float.ofModel (Float.Model.pack u)).toModel.unpack.isNaN := rfl
    rw [hmodel, hunpack]
    exact isNaN_of_isFinite hfinite
  · rw [number, hunpack]
    have hlow := neg_limit_le_signed hu .positive
    exact (clamp_of_le hlow (signed_place_le hu .positive)).symm

theorem pack_of_great {m : ℕ} {e : ℤ} (hm : 0 < m) (he : 971 < e) (s : Sign) :
    Float.Model.pack (.finite s m e hm) = Float.Model.pack (.infinity s) := by
  have hbits : UnpackedFloat.pack Format.binary64 (.finite s m e hm) =
      UnpackedFloat.pack Format.binary64 (.infinity s) := by
    have hbias : (Format.binary64.exponentBias : ℤ) = 1023 := by decide
    simp only [UnpackedFloat.pack, hbias]
    exact if_pos (show 2 ^ 11 ≤ (e + 1023 + (52 : ℕ)).toNat + 1 by omega)
  simp only [Float.Model.pack, hbits]

theorem limit_le_size {m : ℕ} {e : ℤ} (h : IsNormal m e) (he : 971 < e) :
    limit ≤ m * 2 ^ e := by
  have hfull : 2 ^ 52 ≤ m := h.full.resolve_right (by omega)
  calc limit ≤ 2 ^ (52 + e) := two_zpow_le (by omega)
    _ = 2 ^ (52 : ℤ) * 2 ^ e := two_zpow_add _ _
    _ ≤ m * 2 ^ e := by
      refine mul_le_mul_of_nonneg_right ?_ (two_zpow_pos e).le
      exact_mod_cast hfull

/-- Packing a result rounds the exact one, and then cuts it off. -/
theorem number_pack_result (h : IsResult v u) :
    (Float.ofModel (Float.Model.pack u)).isNaN = false ∧
      ∃ q, Rounds v q ∧ number (Float.ofModel (Float.Model.pack u)) = clamp q := by
  cases h with
  | zero s h =>
    exact (number_pack (u := .zero s) trivial rfl).imp_right fun hnumber => ⟨0, h, hnumber⟩
  | finite s m e hm hnormal h =>
    by_cases hmost : e ≤ 971
    · have hdouble : IsUnpacked (.finite s m e hm) :=
        ⟨hnormal.lt, hnormal.least, hmost, hnormal.full⟩
      exact (number_pack hdouble rfl).imp_right fun hnumber => ⟨_, h, hnumber⟩
    · have hgreat : 971 < e := Int.not_le.1 hmost
      rw [pack_of_great hm hgreat]
      exact (number_packed_infinity s).imp_right fun hnumber =>
        ⟨_, h, hnumber.trans (clamp_signed s (limit_le_size hnormal hgreat)).symm⟩

/-! ## Adding the same number on both sides -/

/-- A sum of unpacked numbers. -/
def plus (u p : UnpackedFloat) : Float :=
  Float.ofModel (Float.Model.pack (u.add Format.binary64 p))

theorem number_plus (hu : IsUnpacked u) (hp : IsUnpacked p) (hfinite : u.isFinite = true)
    (hpfinite : p.isFinite = true) :
    (plus u p).isNaN = false ∧
      ∃ q, Rounds (place u + place p) q ∧ number (plus u p) = clamp q :=
  number_pack_result (isResult_add hu hp hfinite hpfinite)

theorem eq_or_eq_neg (s t : Sign) : t = s ∨ t = -s := by
  cases s with
  | negative =>
    cases t with
    | negative => exact .inl rfl
    | positive => exact .inr rfl
  | positive =>
    cases t with
    | negative => exact .inr rfl
    | positive => exact .inl rfl

/-- Only an infinity is as far off as can be. -/
theorem eq_infinity_of_place (hu : IsUnpacked u) {s : Sign} (h : signed s (place u) = -limit) :
    u = .infinity (-s) := by
  have hlimit := limit_pos
  cases u with
  | notANumber =>
    rw [place, signed_zero] at h
    linarith
  | infinity t =>
    rcases eq_or_eq_neg s t with rfl | rfl
    · rw [place, signed_signed] at h
      linarith
    · rfl
  | zero t =>
    rw [place, signed_zero] at h
    linarith
  | finite t m e hm =>
    have hlt := signed_place_lt hu rfl (-s)
    rw [signed_neg, h, neg_neg] at hlt
    exact absurd hlt (lt_irrefl limit)

theorem isNaN_packed_notANumber :
    (Float.ofModel (Float.Model.pack .notANumber)).isNaN = true := rfl

theorem isNaN_notANumber_plus (p : UnpackedFloat) : (plus .notANumber p).isNaN = true := by
  have hadd : UnpackedFloat.add Format.binary64 .notANumber p = .notANumber := by cases p <;> rfl
  rw [plus, hadd, isNaN_packed_notANumber]

theorem isNaN_plus_notANumber (u : UnpackedFloat) : (plus u .notANumber).isNaN = true := by
  have hadd : UnpackedFloat.add Format.binary64 u .notANumber = .notANumber := by cases u <;> rfl
  rw [plus, hadd, isNaN_packed_notANumber]

theorem infinity_plus_self (s : Sign) :
    plus (.infinity s) (.infinity s) = Float.ofModel (Float.Model.pack (.infinity s)) := by
  cases s <;> rfl

theorem isNaN_infinity_plus_neg (s : Sign) :
    (plus (.infinity s) (.infinity (-s))).isNaN = true := by
  cases s <;> rfl

/-- What is added to an infinity does not show, unless there is no sum. -/
theorem infinity_plus (s : Sign) (p : UnpackedFloat) :
    (plus (.infinity s) p).isNaN = true ∨
      plus (.infinity s) p = Float.ofModel (Float.Model.pack (.infinity s)) := by
  cases p with
  | notANumber => exact .inl (isNaN_plus_notANumber _)
  | infinity t =>
    rcases eq_or_eq_neg s t with rfl | rfl
    · exact .inr (infinity_plus_self t)
    · exact .inl (isNaN_infinity_plus_neg s)
  | zero t => exact .inr rfl
  | finite t m e hm => exact .inr rfl

theorem plus_infinity (s : Sign) (u : UnpackedFloat) :
    (plus u (.infinity s)).isNaN = true ∨
      plus u (.infinity s) = Float.ofModel (Float.Model.pack (.infinity s)) := by
  cases u with
  | notANumber => exact .inl (isNaN_notANumber_plus _)
  | infinity t =>
    rcases eq_or_eq_neg t s with rfl | rfl
    · exact .inr (infinity_plus_self s)
    · exact .inl (isNaN_infinity_plus_neg t)
  | zero t => exact .inr rfl
  | finite t m e hm => exact .inr rfl

theorem plus_infinity_of_ne {s : Sign} (hnan : u.isNaN = false) (hne : u ≠ .infinity (-s)) :
    plus u (.infinity s) = Float.ofModel (Float.Model.pack (.infinity s)) := by
  cases u with
  | notANumber => cases hnan
  | infinity t =>
    rcases eq_or_eq_neg s t with rfl | rfl
    · exact infinity_plus_self t
    · exact absurd rfl hne
  | zero t => rfl
  | finite t m e hm => rfl

theorem infinity_plus_of_isFinite (s : Sign) (hp : p.isFinite = true) :
    plus (.infinity s) p = Float.ofModel (Float.Model.pack (.infinity s)) := by
  cases p with
  | notANumber => cases hp
  | infinity t => cases hp
  | zero t => rfl
  | finite t m e hm => rfl

theorem cases_unpacked (u : UnpackedFloat) (s : Sign) :
    u = .notANumber ∨ u = .infinity s ∨ u = .infinity (-s) ∨ u.isFinite = true := by
  cases u with
  | notANumber => exact .inl rfl
  | infinity t =>
    rcases eq_or_eq_neg s t with rfl | rfl
    · exact .inr (.inl rfl)
    · exact .inr (.inr (.inl rfl))
  | zero t => exact .inr (.inr (.inr rfl))
  | finite t m e hm => exact .inr (.inr (.inr rfl))

theorem reaches_of_ahead {s : Sign} (hy : y = Float.ofModel (Float.Model.pack (.infinity s)))
    (x : Float) : Reaches s y x := by
  refine .inr (.inr ?_)
  rw [hy, (number_packed_infinity s).2, signed_signed]
  exact ⟨(number_packed_infinity s).1, signed_place_le (isUnpacked_unpack x) s⟩

theorem reaches_of_behind {s : Sign} (hx : x = Float.ofModel (Float.Model.pack (.infinity (-s))))
    (y : Float) : Reaches s y x := by
  refine .inr (.inl ?_)
  rw [hx, (number_packed_infinity (-s)).2]
  cases s <;> rfl

/-- Whether `w` reaches as far as `u`, of unpacked numbers. -/
def ReachesUnpacked (s : Sign) (w u : UnpackedFloat) : Prop :=
  u.isNaN = true ∨ signed s (place u) = -limit ∨
    w.isNaN = false ∧ signed s (place u) ≤ signed s (place w)

theorem reaches_plus_of_isFinite {s : Sign} {w : UnpackedFloat} (hu : IsUnpacked u)
    (hw : IsUnpacked w) (hp : IsUnpacked p) (hufinite : u.isFinite = true)
    (hwfinite : w.isFinite = true) (hpfinite : p.isFinite = true)
    (hle : signed s (place u) ≤ signed s (place w)) : Reaches s (plus w p) (plus u p) := by
  obtain ⟨-, q, hq, hnumber⟩ := number_plus hu hp hufinite hpfinite
  obtain ⟨hnan, r, hr, hnumber'⟩ := number_plus hw hp hwfinite hpfinite
  refine .inr (.inr ⟨hnan, ?_⟩)
  rw [hnumber, hnumber']
  cases s with
  | positive => exact clamp_mono (hq.le hr (add_le_add_left hle _))
  | negative =>
    have hle' : place w ≤ place u := neg_le_neg_iff.1 hle
    exact neg_le_neg (clamp_mono (hr.le hq (add_le_add_left hle' _)))

/-- Whatever is added to both, the one still reaches as far as the other. -/
theorem reaches_plus {s : Sign} {w : UnpackedFloat} (hu : IsUnpacked u) (hw : IsUnpacked w)
    (hp : IsUnpacked p) (h : ReachesUnpacked s w u) : Reaches s (plus w p) (plus u p) := by
  -- A sum that is no number, or as far behind as can be, reaches nowhere.
  have hbehind (hsum : (plus u p).isNaN = true ∨
      plus u p = Float.ofModel (Float.Model.pack (.infinity (-s)))) :
      Reaches s (plus w p) (plus u p) :=
    hsum.elim .inl fun hsum => reaches_of_behind hsum _
  have hend (hplace : signed s (place u) = -limit) : Reaches s (plus w p) (plus u p) := by
    rw [eq_infinity_of_place hu hplace] at hbehind ⊢
    exact hbehind (infinity_plus (-s) p)
  rcases h with hnan | hplace | ⟨hnan, hle⟩
  · cases u with
    | notANumber => exact .inl (isNaN_notANumber_plus p)
    | _ => cases hnan
  · exact hend hplace
  · by_cases hw' : w = .infinity (-s)
    · have hplace : signed s (place w) = -limit := by
        rw [hw', place]
        cases s <;> rfl
      exact hend (le_antisymm (hplace ▸ hle) (neg_limit_le_signed hu s))
    · rcases cases_unpacked p s with rfl | rfl | rfl | hpfinite
      · exact .inl (isNaN_plus_notANumber u)
      · exact reaches_of_ahead (plus_infinity_of_ne hnan hw') _
      · exact hbehind (plus_infinity (-s) u)
      · rcases cases_unpacked w s with rfl | rfl | rfl | hwfinite
        · cases hnan
        · exact reaches_of_ahead (infinity_plus_of_isFinite s hpfinite) _
        · exact absurd rfl hw'
        · rcases cases_unpacked u s with rfl | rfl | rfl | hufinite
          · exact .inl (isNaN_notANumber_plus p)
          · rw [place, signed_signed] at hle
            exact absurd hle (signed_place_lt hw hwfinite s).not_ge
          · exact hbehind (infinity_plus (-s) p)
          · exact reaches_plus_of_isFinite hu hw hp hufinite hwfinite hpfinite hle

theorem Reaches.add {s : Sign} (h : Reaches s y x) (p : Float) : Reaches s (y + p) (x + p) :=
  reaches_plus (isUnpacked_unpack x) (isUnpacked_unpack y) (isUnpacked_unpack p) h

/-- Subtracting adds the number with the other sign. -/
theorem sub_eq_add_neg (u p : UnpackedFloat) :
    u.sub Format.binary64 p = u.add Format.binary64 p.neg := by
  cases u with
  | notANumber => cases p <;> rfl
  | infinity s => cases p <;> rfl
  | zero s => cases p <;> rfl
  | finite s m e hm =>
    cases p with
    | notANumber => rfl
    | infinity t => rfl
    | zero t => rfl
    | finite t m' e' hm' =>
      have happly (k : ℤ) : (-t).apply k = -t.apply k := by
        cases t with
        | negative => exact (neg_neg k).symm
        | positive => rfl
      simp only [UnpackedFloat.sub, UnpackedFloat.add, UnpackedFloat.neg, happly,
        Int.sub_eq_add_neg]

theorem sub_eq_plus (x p : Float) : x - p = plus x.toModel.unpack p.toModel.unpack.neg :=
  congrArg (fun u => Float.ofModel (Float.Model.pack u)) (sub_eq_add_neg _ _)

theorem isUnpacked_neg (hp : IsUnpacked p) : IsUnpacked p.neg := by
  cases p <;> exact hp

theorem Reaches.sub {s : Sign} (h : Reaches s y x) (p : Float) : Reaches s (y - p) (x - p) := by
  rw [sub_eq_plus, sub_eq_plus]
  exact reaches_plus (isUnpacked_unpack x) (isUnpacked_unpack y)
    (isUnpacked_neg (isUnpacked_unpack p)) h

/-! ## Unlimited margins -/

theorem isFinite_eq (x : Float) : x.isFinite = x.toModel.unpack.isFinite := rfl

/-- Without limit on the margin everything is between the ends. -/
theorem sub_lt_add_of_infinite {z m : Float} (hx : x.isFinite = true) (hz : z.isFinite = true)
    (hm : m.toModel.unpack = .infinity .positive) : x - m < z + m := by
  have hne {y : Float} (hy : y.isFinite = true) (s : Sign) :
      plus y.toModel.unpack (.infinity s) = Float.ofModel (Float.Model.pack (.infinity s)) := by
    rw [isFinite_eq] at hy
    refine plus_infinity_of_ne ?_ fun h => ?_
    · exact isNaN_of_isFinite hy
    · rw [h] at hy
      cases hy
  have hadd : z + m = plus z.toModel.unpack m.toModel.unpack := rfl
  have hneg : (UnpackedFloat.infinity .positive).neg = .infinity (-.positive) := rfl
  have hlimit := limit_pos
  rw [sub_eq_plus, hadd, hm, hneg, hne hx, hne hz, lt_iff, (number_packed_infinity _).2,
    (number_packed_infinity _).2, signed_neg, signed]
  exact ⟨(number_packed_infinity _).1, (number_packed_infinity _).1, by linarith⟩

theorem isFinite_add_zero (hx : x.isFinite = true) : (x + 0.0).isFinite = true := by
  have hadd : x + 0.0 = plus x.toModel.unpack (0.0 : Float).toModel.unpack := rfl
  have hu := isUnpacked_unpack x
  rw [isFinite_eq] at hx
  rw [hadd, unpack_zero, isFinite_eq, plus]
  cases h : x.toModel.unpack with
  | notANumber => rw [h] at hx; cases hx
  | infinity s => rw [h] at hx; cases hx
  | zero s => cases s <;> rfl
  | finite s m e hm =>
    rw [h] at hu
    have hsum : UnpackedFloat.add Format.binary64 (.finite s m e hm) (.zero .positive) =
        .finite s m e hm := rfl
    rw [hsum, unpack_pack hu rfl]
    rfl

end Double

/-! ## Products -/

namespace Decimal

open Float.Model Float.Model.UnpackedFloat
open Double

variable {v q r : ℚ} {m m' : ℕ} {e e' : ℤ}

theorem Rounds.eq (h : Rounds v q) (h' : Rounds v r) : q = r :=
  le_antisymm (h.le h' (le_refl v)) (h'.le h (le_refl v))

theorem signed_mul (s t : Sign) (a b : ℚ) : signed (s * t) (a * b) = signed s a * signed t b := by
  cases s with
  | positive =>
    cases t with
    | positive => rfl
    | negative => exact (mul_neg a b).symm
  | negative =>
    cases t with
    | positive => exact (neg_mul a b).symm
    | negative => exact (neg_mul_neg a b).symm

/-- A full mantissa leaves the product as many places as a double has, and two exponents that
are the least ones lie below all exponents of doubles. -/
theorem add_le_targetExponent (h : IsDouble m e) (h' : IsDouble m' e') (hm : 0 < m) (hm' : 0 < m') :
    e + e' ≤ Format.binary64.targetExponent (totalExponent (m * m') (e + e')) := by
  have hne : m * m' ≠ 0 := (Nat.mul_pos hm hm').ne'
  have hleft : m ≤ m * m' := Nat.le_mul_of_pos_right m hm'
  have hright : m' ≤ m * m' := Nat.le_mul_of_pos_left m' hm
  have hlog : 52 ≤ (m * m').log2 ∨ e + e' ≤ -1074 := by
    rw [Nat.le_log2 hne]
    rcases h.full with hfull | hleast
    · exact .inl (hfull.trans hleft)
    · rcases h'.full with hfull | hleast'
      · exact .inl (hfull.trans hright)
      · exact .inr (by omega)
  rw [targetExponent_eq, totalExponent]
  omega

theorem isResult_mul {u p : UnpackedFloat} (hu : IsUnpacked u) (hp : IsUnpacked p)
    (hfinite : u.isFinite = true) (hpfinite : p.isFinite = true) :
    IsResult (place u * place p) (u.mul Format.binary64 p) := by
  cases u with
  | notANumber => cases hfinite
  | infinity s => cases hfinite
  | zero s =>
    rw [place, zero_mul]
    cases p with
    | notANumber => cases hpfinite
    | infinity t => cases hpfinite
    | zero t => exact .zero (s * t) rounds_zero
    | finite t m e hm => exact .zero (s * t) rounds_zero
  | finite s m e hm =>
    cases p with
    | notANumber => cases hpfinite
    | infinity t => cases hpfinite
    | zero t =>
      have hzero : place (.zero t) = 0 := rfl
      rw [hzero, mul_zero]
      exact .zero (s * t) rounds_zero
    | finite t m' e' hm' =>
      have hsize : (m * 2 ^ e * (m' * 2 ^ e') : ℚ) / 2 ^ (e + e') = (m * m' : ℕ) := by
        rw [two_zpow_add, Nat.cast_mul, mul_mul_mul_comm]
        exact mul_div_cancel_right₀ _ (mul_pos (two_zpow_pos e) (two_zpow_pos e')).ne'
      have hrepresents := represents_exact (m * m')
      rw [← hsize] at hrepresents
      have hproduct := isResult_roundWithAccuracy (mul_pos (size_pos hm e) (size_pos hm' e'))
        hrepresents (add_le_targetExponent hu hp hm hm') (s * t)
      rwa [signed_mul] at hproduct

end Decimal

namespace Double

open Float.Model Float.Model.UnpackedFloat
open Decimal

variable {x y z : Float} {q : ℚ}

/-! ## What is rounded to itself -/

theorem rounds_number (hx : x.isFinite = true) : Rounds (number x) (number x) := by
  have hu := isUnpacked_unpack x
  rw [isFinite_eq] at hx
  rw [number]
  revert hu hx
  cases x.toModel.unpack with
  | notANumber => exact fun hfinite _ => by cases hfinite
  | infinity s => exact fun hfinite _ => by cases hfinite
  | zero s => exact fun _ _ => rounds_zero
  | finite s m e hm => exact fun _ hu => (isRoundedAt_size hu).rounds (size_pos hm e) s

theorem number_bounds (hx : x.isFinite = true) : -limit < number x ∧ number x < limit := by
  have hu := isUnpacked_unpack x
  exact ⟨neg_lt.1 (signed_place_lt hu hx .negative), signed_place_lt hu hx .positive⟩

theorem clamp_number (hx : x.isFinite = true) : clamp (number x) = number x :=
  clamp_of_le (number_bounds hx).1.le (number_bounds hx).2.le

/-- What lies where a finite number lies is finite. -/
theorem isFinite_of_number (hx : x.isFinite = true) (hz : z.isNaN = false)
    (h : number z = number x) : z.isFinite = true := by
  have hbounds := number_bounds hx
  rw [← h, number] at hbounds
  have hnan : z.toModel.unpack.isNaN = false := hz
  rw [isFinite_eq]
  revert hbounds hnan
  cases z.toModel.unpack with
  | notANumber => exact fun _ hnan => by cases hnan
  | infinity s =>
    intro hbounds _
    cases s with
    | positive => exact absurd hbounds.2 (lt_irrefl limit)
    | negative => exact absurd hbounds.1 (lt_irrefl (-limit))
  | zero s => exact fun _ _ => rfl
  | finite s m e hm => exact fun _ _ => rfl

/-! ## Products and sums that are exact -/

/-- A product that is a double is exact. -/
theorem number_mul_of_eq (hx : x.isFinite = true) (hy : y.isFinite = true) (hz : z.isFinite = true)
    (h : number x * number y = number z) :
    (x * y).isFinite = true ∧ number (x * y) = number z := by
  have hmul : x * y = Float.ofModel
      (Float.Model.pack (x.toModel.unpack.mul Format.binary64 y.toModel.unpack)) := rfl
  obtain ⟨hnan, q, hq, hnumber⟩ := number_pack_result
    (isResult_mul (isUnpacked_unpack x) (isUnpacked_unpack y) hx hy)
  rw [← hmul] at hnan hnumber
  have hexact : Rounds (number z) q := h ▸ hq
  rw [hexact.eq (rounds_number hz), clamp_number hz] at hnumber
  exact ⟨isFinite_of_number hz hnan hnumber, hnumber⟩

/-- A sum that is a double is exact. -/
theorem number_add_of_eq (hx : x.isFinite = true) (hy : y.isFinite = true) (hz : z.isFinite = true)
    (h : number x + number y = number z) :
    (x + y).isFinite = true ∧ number (x + y) = number z := by
  have hadd : x + y = plus x.toModel.unpack y.toModel.unpack := rfl
  obtain ⟨hnan, q, hq, hnumber⟩ :=
    number_plus (isUnpacked_unpack x) (isUnpacked_unpack y) hx hy
  rw [← hadd] at hnan hnumber
  have hexact : Rounds (number z) q := h ▸ hq
  rw [hexact.eq (rounds_number hz), clamp_number hz] at hnumber
  exact ⟨isFinite_of_number hz hnan hnumber, hnumber⟩

theorem number_zero : number 0.0 = 0 := by
  rw [number, unpack_zero, place]

theorem number_one : number 1.0 = 1 := by
  have hofFloat : Binary.ofFloat 1.0 = .finite false (2 ^ 52) (-52) := by rfl
  rw [number, unpack_toModel, hofFloat]
  norm_num [Binary.unpacked, signOf, place, signed]

/-- Only the first term counts where its factor is one and the other factor is zero. -/
theorem number_mul_one_add_mul_zero (hx : x.isFinite = true) (hy : y.isFinite = true) :
    (x * 1.0 + y * 0.0).isFinite = true ∧ number (x * 1.0 + y * 0.0) = number x := by
  have hone : (1.0 : Float).isFinite = true := by decide
  have hzero : (0.0 : Float).isFinite = true := by decide
  obtain ⟨hfirst, hnumber⟩ := number_mul_of_eq hx hone hx (by rw [number_one, mul_one])
  obtain ⟨hsecond, hnothing⟩ := number_mul_of_eq hy hzero hzero (by rw [number_zero, mul_zero])
  exact number_add_of_eq hfirst hsecond hx (by rw [hnumber, hnothing, number_zero, add_zero])

theorem number_mul_zero_add_mul_one (hx : x.isFinite = true) (hy : y.isFinite = true) :
    (x * 0.0 + y * 1.0).isFinite = true ∧ number (x * 0.0 + y * 1.0) = number y := by
  have hone : (1.0 : Float).isFinite = true := by decide
  have hzero : (0.0 : Float).isFinite = true := by decide
  obtain ⟨hfirst, hnothing⟩ := number_mul_of_eq hx hzero hzero (by rw [number_zero, mul_zero])
  obtain ⟨hsecond, hnumber⟩ := number_mul_of_eq hy hone hy (by rw [number_one, mul_one])
  exact number_add_of_eq hfirst hsecond hy (by rw [hnumber, hnothing, number_zero, zero_add])

end Double
end SvgCompact
