import SvgCompact.Proofs.Decimal.Nearest
import SvgCompact.Scalar

/-!
The order of doubles.

`number` puts doubles on the line of rationals: a finite one where it belongs, and an
infinity where the first power of two lies that is too great for a double.  Doubles
compare as these numbers do, except for what is not a number, which compares with nothing.
-/

namespace SvgCompact
namespace Double

open Float.Model Float.Model.UnpackedFloat
open Decimal

/-- The first power of two that is too great for a double. -/
def limit : ℚ := 2 ^ (1024 : ℤ)

def signed (s : Sign) (q : ℚ) : ℚ :=
  match s with
  | .positive => q
  | .negative => -q

theorem signed_zero (s : Sign) : signed s 0 = 0 := by
  cases s <;> simp [signed]

/-- Where an unpacked number lies.  What is not a number is put at zero. -/
def place : UnpackedFloat → ℚ
  | .notANumber => 0
  | .infinity s => signed s limit
  | .zero _ => 0
  | .finite s mantissa exponent _ => signed s (mantissa * 2 ^ exponent)

def number (x : Float) : ℚ := place x.toModel.unpack

/-- Whether the parts of an unpacked number are those of a double. -/
def IsUnpacked : UnpackedFloat → Prop
  | .finite _ mantissa exponent _ => IsDouble mantissa exponent
  | _ => True

variable {x y z : Float} {u v : UnpackedFloat} {mantissa mantissa' : ℕ} {exponent exponent' : ℤ}

theorem isUnpacked_unpack (x : Float) : IsUnpacked x.toModel.unpack := by
  rw [unpack_toModel]
  cases hx : Binary.ofFloat x with
  | nan => trivial
  | infinite negative => trivial
  | finite negative mantissa exponent =>
    rw [Binary.unpacked]
    split
    · trivial
    · exact (ofFloat_finite hx).1

theorem limit_pos : 0 < limit := two_zpow_pos 1024

theorem size_lt_limit (h : IsDouble mantissa exponent) : (mantissa : ℚ) * 2 ^ exponent < limit := by
  have hmantissa : (mantissa : ℚ) < 2 ^ (53 : ℤ) := by exact_mod_cast h.lt
  calc (mantissa : ℚ) * 2 ^ exponent < 2 ^ (53 : ℤ) * 2 ^ exponent :=
        mul_lt_mul_of_pos_right hmantissa (two_zpow_pos exponent)
    _ = 2 ^ (53 + exponent) := (two_zpow_add _ _).symm
    _ ≤ limit := two_zpow_le (by have := h.most; omega)

theorem size_pos (hpos : 0 < mantissa) (exponent : ℤ) : (0 : ℚ) < mantissa * 2 ^ exponent :=
  mul_pos (by exact_mod_cast hpos) (two_zpow_pos exponent)

/-! ## Comparing -/

/-- The exponents decide first: a mantissa is full unless its exponent is the least one. -/
theorem size_lt_of_lt (h : IsDouble mantissa exponent) (h' : IsDouble mantissa' exponent')
    (hlt : exponent < exponent') : (mantissa : ℚ) * 2 ^ exponent < mantissa' * 2 ^ exponent' := by
  have hmantissa : (mantissa : ℚ) < 2 ^ (53 : ℤ) := by exact_mod_cast h.lt
  have hfull : 2 ^ 52 ≤ mantissa' := h'.full.resolve_right (by have := h.least; omega)
  have hfull' : (2 : ℚ) ^ (52 : ℤ) ≤ mantissa' := by exact_mod_cast hfull
  calc (mantissa : ℚ) * 2 ^ exponent < 2 ^ (53 : ℤ) * 2 ^ exponent :=
        mul_lt_mul_of_pos_right hmantissa (two_zpow_pos exponent)
    _ = 2 ^ (53 + exponent) := (two_zpow_add _ _).symm
    _ ≤ 2 ^ (52 + exponent') := two_zpow_le (by omega)
    _ = 2 ^ (52 : ℤ) * 2 ^ exponent' := two_zpow_add _ _
    _ ≤ mantissa' * 2 ^ exponent' := mul_le_mul_of_nonneg_right hfull' (two_zpow_pos exponent').le

theorem size_lt_iff (h : IsDouble mantissa exponent) (h' : IsDouble mantissa' exponent') :
    (mantissa : ℚ) * 2 ^ exponent < mantissa' * 2 ^ exponent' ↔
      exponent < exponent' ∨ exponent = exponent' ∧ mantissa < mantissa' := by
  rcases lt_trichotomy exponent exponent' with hlt | rfl | hlt
  · exact iff_of_true (size_lt_of_lt h h' hlt) (.inl hlt)
  · rw [mul_lt_mul_iff_left₀ (two_zpow_pos exponent), Nat.cast_lt]
    simp
  · refine iff_of_false (size_lt_of_lt h' h hlt).not_gt ?_
    omega

theorem then_eq_lt_iff : (compare exponent exponent').then (compare mantissa mantissa') = .lt ↔
    exponent < exponent' ∨ exponent = exponent' ∧ mantissa < mantissa' := by
  rw [Ordering.then_eq_lt, compare_lt_iff_lt, compare_eq_iff_eq, Nat.compare_eq_lt]

theorem then_eq_gt_iff : (compare exponent exponent').then (compare mantissa mantissa') = .gt ↔
    exponent' < exponent ∨ exponent' = exponent ∧ mantissa' < mantissa := by
  rw [Ordering.then_eq_gt, compare_gt_iff_gt, compare_eq_iff_eq, Nat.compare_eq_gt,
    eq_comm]

theorem compare_sign_eq_lt_iff {s t : Sign} :
    compare s t = .lt ↔ s = .negative ∧ t = .positive := by
  cases s <;> cases t
  · exact iff_of_false (fun h => by cases h) (by simp)
  · exact iff_of_true rfl ⟨rfl, rfl⟩
  · exact iff_of_false (fun h => by cases h) (by simp)
  · exact iff_of_false (fun h => by cases h) (by simp)

theorem signed_lt_signed {a b : ℚ} (ha : 0 < a) (hb : 0 < b) (s t : Sign) :
    signed s a < signed t b ↔
      s = .negative ∧ (t = .positive ∨ b < a) ∨ s = .positive ∧ t = .positive ∧ a < b := by
  cases s <;> cases t <;> simp only [signed]
  · simp
  · exact iff_of_true (by linarith) (by simp)
  · exact iff_of_false (by linarith) (by simp)
  · simp

theorem zero_lt_signed {a : ℚ} (ha : 0 < a) (s : Sign) : 0 < signed s a ↔ s = .positive := by
  cases s <;> simp [signed, ha, ha.le]

theorem signed_lt_zero {a : ℚ} (ha : 0 < a) (s : Sign) : signed s a < 0 ↔ s = .negative := by
  cases s <;> simp [signed, ha, ha.le]

theorem place_lt_iff (hu : IsUnpacked u) (hv : IsUnpacked v) :
    u.lt v = true ↔ u.isNaN = false ∧ v.isNaN = false ∧ place u < place v := by
  have hlimit := limit_pos
  rw [UnpackedFloat.lt, beq_iff_eq]
  cases u with
  | notANumber => simp [UnpackedFloat.compare, UnpackedFloat.isNaN]
  | infinity s =>
    cases v with
    | notANumber => cases s <;> simp [UnpackedFloat.compare, UnpackedFloat.isNaN]
    | infinity t =>
      simp [UnpackedFloat.compare, UnpackedFloat.isNaN, place, compare_sign_eq_lt_iff,
        signed_lt_signed hlimit hlimit]
    | zero t =>
      cases s <;> simp [UnpackedFloat.compare, UnpackedFloat.isNaN, place, signed_lt_zero hlimit]
    | finite t m e hm =>
      have hless := size_lt_limit hv
      cases s <;> cases t <;> simp [UnpackedFloat.compare, UnpackedFloat.isNaN, place,
        signed_lt_signed hlimit (size_pos hm e), hless, hless.le]
  | zero s =>
    cases v with
    | notANumber => simp [UnpackedFloat.compare, UnpackedFloat.isNaN]
    | infinity t =>
      cases t <;> simp [UnpackedFloat.compare, UnpackedFloat.isNaN, place, zero_lt_signed hlimit]
    | zero t => simp [UnpackedFloat.compare, UnpackedFloat.isNaN, place]
    | finite t m e hm =>
      cases t <;> simp [UnpackedFloat.compare, UnpackedFloat.isNaN, place,
        zero_lt_signed (size_pos hm e)]
  | finite s m e hm =>
    have hpos := size_pos hm e
    have hless := size_lt_limit hu
    cases v with
    | notANumber => cases s <;> simp [UnpackedFloat.compare, UnpackedFloat.isNaN]
    | infinity t =>
      cases s <;> cases t <;> simp [UnpackedFloat.compare, UnpackedFloat.isNaN, place,
        signed_lt_signed hpos hlimit, hless, hless.le]
    | zero t =>
      cases s <;> simp [UnpackedFloat.compare, UnpackedFloat.isNaN, place, signed_lt_zero hpos]
    | finite t m' e' hm' =>
      cases s <;> cases t <;> simp [UnpackedFloat.compare, UnpackedFloat.isNaN, place,
        signed_lt_signed hpos (size_pos hm' e'), then_eq_lt_iff, then_eq_gt_iff,
        size_lt_iff hu hv, size_lt_iff hv hu]

theorem lt_iff : x < y ↔ x.isNaN = false ∧ y.isNaN = false ∧ number x < number y := by
  have hmodel : x < y ↔ x.toModel.unpack.lt y.toModel.unpack = true :=
    ⟨fun h => of_decide_eq_true (show x.lt y = true from h), fun h => decide_eq_true h⟩
  rw [hmodel]
  exact place_lt_iff (isUnpacked_unpack x) (isUnpacked_unpack y)

/-! ## How far numbers reach -/

/-- Whether `y` reaches as far as `x`, up or down.  What is not a number reaches nowhere,
and neither does the infinity on the other side. -/
def Reaches (s : Sign) (y x : Float) : Prop :=
  x.isNaN = true ∨ signed s (number x) = -limit ∨
    y.isNaN = false ∧ signed s (number x) ≤ signed s (number y)

theorem signed_place_lt (hu : IsUnpacked u) (hfinite : u.isFinite = true) (s : Sign) :
    signed s (place u) < limit := by
  have hlimit := limit_pos
  cases u with
  | notANumber => cases hfinite
  | infinity t => cases hfinite
  | zero t => simpa only [place, signed_zero] using hlimit
  | finite t m e hm =>
    have hpos := size_pos hm e
    have hless := size_lt_limit hu
    cases s <;> cases t <;> simp only [place, signed] <;> linarith

theorem signed_place_le (hu : IsUnpacked u) (s : Sign) : signed s (place u) ≤ limit := by
  have hlimit := limit_pos
  cases u with
  | notANumber => simpa only [place, signed_zero] using hlimit.le
  | infinity t => cases s <;> cases t <;> simp only [place, signed] <;> linarith
  | zero t => exact (signed_place_lt hu rfl s).le
  | finite t m e hm => exact (signed_place_lt hu rfl s).le

theorem signed_neg (s : Sign) (q : ℚ) : signed (-s) q = -signed s q := by
  cases s with
  | negative => exact (neg_neg q).symm
  | positive => rfl

theorem signed_signed (s : Sign) (q : ℚ) : signed s (signed s q) = q := by
  cases s with
  | negative => exact neg_neg q
  | positive => rfl

theorem neg_limit_le_signed (hu : IsUnpacked u) (s : Sign) : -limit ≤ signed s (place u) := by
  have hle := signed_place_le hu (-s)
  rw [signed_neg] at hle
  exact neg_le.1 hle

namespace Reaches

variable {s : Sign}

theorem refl (s : Sign) (x : Float) : Reaches s x x := by
  cases hx : x.isNaN with
  | true => exact .inl hx
  | false => exact .inr (.inr ⟨hx, le_refl _⟩)

theorem trans (hz : Reaches s z y) (hy : Reaches s y x) : Reaches s z x := by
  rcases hy with hx | hx | ⟨hy, hxy⟩
  · exact .inl hx
  · exact .inr (.inl hx)
  · rcases hz with hnan | hend | ⟨hz, hyz⟩
    · rw [hy] at hnan
      cases hnan
    · exact .inr (.inl (le_antisymm (hend ▸ hxy)
        (neg_limit_le_signed (isUnpacked_unpack x) s)))
    · exact .inr (.inr ⟨hz, hxy.trans hyz⟩)

theorem lt_of_lt (h : Reaches .negative y x) (hlt : x < z) : y < z := by
  obtain ⟨hx, hz, hnumber⟩ := lt_iff.1 hlt
  have hlimit : number z ≤ limit := signed_place_le (isUnpacked_unpack z) .positive
  rcases h with hnan | hend | ⟨hy, hxy⟩
  · rw [hx] at hnan
    cases hnan
  · have hend' : number x = limit := neg_inj.1 hend
    exact absurd (hend' ▸ hnumber) hlimit.not_gt
  · exact lt_iff.2 ⟨hy, hz, (neg_le_neg_iff.1 hxy).trans_lt hnumber⟩

theorem lt_of_gt (h : Reaches .positive y x) (hlt : z < x) : z < y := by
  obtain ⟨hz, hx, hnumber⟩ := lt_iff.1 hlt
  rcases h with hnan | hend | ⟨hy, hxy⟩
  · rw [hx] at hnan
    cases hnan
  · have hend' : number x = -limit := hend
    exact absurd (hend' ▸ hnumber) (neg_limit_le_signed (isUnpacked_unpack z) .positive).not_gt
  · exact lt_iff.2 ⟨hz, hy, hnumber.trans_le hxy⟩

end Reaches

theorem number_le_of_not_lt (hx : x.isNaN = false) (hy : y.isNaN = false) (h : ¬ x < y) :
    number y ≤ number x :=
  not_lt.1 fun hlt => h (lt_iff.2 ⟨hx, hy, hlt⟩)

theorem min_eq_or (x y : Float) : min x y = x ∨ min x y = y := by
  unfold min
  split_ifs <;> simp

theorem max_eq_or (x y : Float) : max x y = x ∨ max x y = y := by
  unfold max
  split_ifs <;> simp

theorem Reaches.min {s : Sign} (hx : Reaches s z x) (hy : Reaches s z y) :
    Reaches s z (Double.min x y) := by
  rcases min_eq_or x y with h | h
  · rwa [h]
  · rwa [h]

theorem Reaches.max {s : Sign} (hx : Reaches s z x) (hy : Reaches s z y) :
    Reaches s z (Double.max x y) := by
  rcases max_eq_or x y with h | h
  · rwa [h]
  · rwa [h]

theorem reaches_min (x y : Float) :
    Reaches .negative (min x y) x ∧ Reaches .negative (min x y) y := by
  unfold min
  split_ifs with hx hy hlt
  · exact ⟨.inl hx, .refl _ _⟩
  · exact ⟨.refl _ _, .inl hy⟩
  · obtain ⟨hy, hx, hnumber⟩ := lt_iff.1 hlt
    exact ⟨.inr (.inr ⟨hy, neg_le_neg hnumber.le⟩), .refl _ _⟩
  · have hx' := Bool.eq_false_iff.2 hx
    have hnumber := number_le_of_not_lt (Bool.eq_false_iff.2 hy) hx' hlt
    exact ⟨.refl _ _, .inr (.inr ⟨hx', neg_le_neg hnumber⟩)⟩

theorem reaches_max (x y : Float) :
    Reaches .positive (max x y) x ∧ Reaches .positive (max x y) y := by
  unfold max
  split_ifs with hx hy hlt
  · exact ⟨.inl hx, .refl _ _⟩
  · exact ⟨.refl _ _, .inl hy⟩
  · obtain ⟨hx, hy, hnumber⟩ := lt_iff.1 hlt
    exact ⟨.inr (.inr ⟨hy, hnumber.le⟩), .refl _ _⟩
  · have hx' := Bool.eq_false_iff.2 hx
    have hnumber := number_le_of_not_lt hx' (Bool.eq_false_iff.2 hy) hlt
    exact ⟨.refl _ _, .inr (.inr ⟨hx', hnumber⟩)⟩

end Double
end SvgCompact
