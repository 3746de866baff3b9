import Reckon.Proofs.Binary64.Grid
import Mathlib.Tactic.FieldSimp

/-! The machine rounds to the grid. A quotient, a product or a natural number comes with the part of
its digits that fits and with two bits about the others; shifting to the right keeps what they say,
and the last step takes the nearest mantissa. -/
namespace Reckon.Binary64

open Decimal (Interval)
open Float.Model (Format totalExponent)
open Float.Model.UnpackedFloat

/-- The number that a mantissa and the bits behind it stand for: the first of them is a half, and
the other says that something less than a half is left over. -/
def Represents (x : ExtendedMantissa) (w : Rat) : Prop :=
  if x.stickyBit then
    x.mantissa + (if x.roundBit then 1 / 2 else 0 : Rat) < w ∧
      w < x.mantissa + (if x.roundBit then 1 / 2 else 0) + 1 / 2
  else w = x.mantissa + (if x.roundBit then 1 / 2 else 0 : Rat)

structure NearestInteger (n : Nat) (w : Rat) : Prop where
  above : n - 1 / 2 ≤ w
  below : w ≤ n + 1 / 2
  even : n % 2 = 1 → w ≠ n - 1 / 2 ∧ w ≠ n + 1 / 2

namespace Represents

variable {x : ExtendedMantissa}

theorem exact (m : Nat) : Represents (.ofMantissaAndAccuracy m .exact) m := by
  simp [Represents, ExtendedMantissa.ofMantissaAndAccuracy]

/-- What is left over of a division says how the quotient goes on. -/
theorem quotient (n : Nat) (positive : 0 < d) :
    Represents (.ofMantissaAndAccuracy (n / d) (accuracyOfFraction (n % d) d)) (n / d : Rat) := by
  have denominator : (0 : Rat) < d := by exact_mod_cast positive
  have split : (n : Rat) / d = (n / d : Nat) + (n % d : Nat) / (d : Rat) := by
    have whole : (n : Rat) = d * (n / d : Nat) + (n % d : Nat) := by
      exact_mod_cast (Nat.div_add_mod n d).symm
    rw [div_eq_iff denominator.ne', add_mul, div_mul_cancel₀ _ denominator.ne', whole, mul_comm]
  have half (r : Nat) : (r : Rat) / d < 1 / 2 ↔ 2 * r < d := by
    rw [div_lt_div_iff₀ denominator (by norm_num)]
    norm_cast
    omega
  have equalHalf (r : Nat) : (r : Rat) / d = 1 / 2 ↔ 2 * r = d := by
    rw [div_eq_div_iff denominator.ne' (by norm_num)]
    norm_cast
    omega
  have small : ((n % d : Nat) : Rat) / d < 1 := by
    rw [div_lt_one denominator]
    exact_mod_cast Nat.mod_lt n positive
  rw [split]
  generalize n % d = r at small
  rw [accuracyOfFraction]
  split
  · rename_i none
    simp [Represents, ExtendedMantissa.ofMantissaAndAccuracy, none]
  · rename_i some
    have more : 0 < (r : Rat) / d := by
      have : (0 : Rat) < r := by exact_mod_cast Nat.pos_of_ne_zero some
      positivity
    rcases lt_trichotomy (2 * r) d with less | equal | greater
    · have := (half r).mpr less
      rw [Nat.compare_eq_lt.mpr less]
      simp only [Represents, ExtendedMantissa.ofMantissaAndAccuracy, if_true, Bool.false_eq_true,
        if_false]
      constructor <;> linarith
    · have := (equalHalf r).mpr equal
      rw [Nat.compare_eq_eq.mpr equal]
      simp [Represents, ExtendedMantissa.ofMantissaAndAccuracy, this]
    · have above : 1 / 2 < (r : Rat) / d := by
        refine lt_of_le_of_ne (not_lt.mp fun below => ?_) fun same => ?_
        · exact absurd ((half r).mp below) greater.asymm
        · exact absurd ((equalHalf r).mp same.symm) greater.ne'
      rw [Nat.compare_eq_gt.mpr greater]
      simp only [Represents, ExtendedMantissa.ofMantissaAndAccuracy, if_true]
      constructor <;> linarith

theorem bounds (h : Represents x w) : (x.mantissa : Rat) ≤ w ∧ w < x.mantissa + 1 := by
  obtain ⟨m, r, s⟩ := x
  cases r <;> cases s <;> simp only [Represents, if_true, if_false, Bool.false_eq_true] at h <;>
    constructor <;> linarith

theorem shiftRightOne (h : Represents x w) : Represents x.shiftRightOne (w / 2) := by
  obtain ⟨m, r, s⟩ := x
  have halves : (m : Rat) = 2 * (m / 2 : Nat) + (m % 2 : Nat) := by
    exact_mod_cast (Nat.div_add_mod m 2).symm
  rcases Nat.mod_two_eq_zero_or_one m with even | odd
  · rw [even] at halves
    cases r <;> cases s <;>
      simp only [Represents, ExtendedMantissa.shiftRightOne, even, Nat.cast_zero] at h halves ⊢ <;>
      simp at h halves ⊢ <;>
      (try constructor) <;> linarith
  · rw [odd] at halves
    cases r <;> cases s <;>
      simp only [Represents, ExtendedMantissa.shiftRightOne, odd, Nat.cast_one] at h halves ⊢ <;>
      simp at h halves ⊢ <;>
      (try constructor) <;> linarith

theorem shiftRight (h : Represents x w) (k : Nat) : Represents (x >>> k) (w / 2 ^ k) := by
  change Represents (k.repeat ExtendedMantissa.shiftRightOne x) _
  induction k with
  | zero => simpa [Nat.repeat] using h
  | succ k ih =>
    rw [pow_succ, ← div_div]
    exact ih.shiftRightOne

theorem nearestInteger (h : Represents x w) : NearestInteger x.roundedMantissa w := by
  obtain ⟨m, r, s⟩ := x
  have next : ((m + 1 : Nat) : Rat) = m + 1 := Nat.cast_succ m
  cases r <;> cases s <;>
    simp only [Represents, if_true, if_false, Bool.false_eq_true] at h <;>
    simp only [ExtendedMantissa.roundedMantissa, ExtendedMantissa.accuracy,
      Accuracy.roundToNearestEven]
  · exact ⟨by linarith, by linarith, fun _ => ⟨fun _ => by linarith, fun _ => by linarith⟩⟩
  · exact ⟨by linarith, by linarith, fun _ => ⟨fun _ => by linarith, fun _ => by linarith⟩⟩
  · -- A tie goes to the even neighbour.
    rcases Nat.mod_two_eq_zero_or_one m with even | odd
    · rw [even, Nat.add_zero]
      exact ⟨by linarith, by linarith, fun odd => by omega⟩
    · rw [odd]
      exact ⟨by linarith, by linarith, fun odd' => by omega⟩
  · exact ⟨by linarith, by linarith, fun _ => ⟨fun _ => by linarith, fun _ => by linarith⟩⟩

end Represents

theorem targetExponent_binary64 (e : Int) :
    Format.binary64.targetExponent e = max (e - 53) (-1074) :=
  rfl

/-- The exponent that 53 digits, or what there is of them near zero, leave for a number. -/
theorem targetExponent_eq (m : Nat) (e : Int) :
    Format.binary64.targetExponent (totalExponent m e) = max (m.log2 + e - 52) (-1074) := by
  rw [targetExponent_binary64, totalExponent]
  omega

theorem shiftToTargetExponent_eq (m : Nat) (e : Int) (accuracy : Accuracy) {t : Int}
    (target : Format.binary64.targetExponent (totalExponent m e) = t) (enough : e ≤ t) :
    shiftToTargetExponent .binary64 m e accuracy =
      (ExtendedMantissa.ofMantissaAndAccuracy m accuracy >>> (t - e).toNat, t) := by
  rw [shiftToTargetExponent, target, shiftToExponent]
  exact Prod.ext rfl (by dsimp only; omega)

/-- A mantissa that has its place already is not shifted. -/
theorem shiftToTargetExponent_self (digits : m < 2 ^ 53) (least : -1074 ≤ e) :
    shiftToTargetExponent .binary64 m e .exact = (⟨m, false, false⟩, e) := by
  have log : m.log2 ≤ 52 := by
    rcases Nat.eq_zero_or_pos m with rfl | positive
    · decide
    · exact Nat.lt_succ_iff.mp ((Nat.log2_lt positive.ne').mpr digits)
  have still : (Format.binary64.targetExponent (totalExponent m e) - e).toNat = 0 := by
    rw [targetExponent_eq]
    omega
  rw [shiftToTargetExponent, shiftToExponent, still]
  exact Prod.ext rfl (by simp)

theorem shiftToTargetExponent_carry (least : -1074 ≤ e) :
    shiftToTargetExponent .binary64 (2 ^ 53) e .exact = (⟨2 ^ 52, false, false⟩, e + 1) := by
  have target : Format.binary64.targetExponent (totalExponent (2 ^ 53) e) = e + 1 := by
    rw [targetExponent_eq, Nat.log2_two_pow]
    omega
  rw [shiftToTargetExponent_eq _ _ _ target (by omega), show (e + 1 - e).toNat = 1 by omega]
  rfl

def unpacked (sign : Sign) (m : Nat) (e : Int) : Float.Model.UnpackedFloat :=
  if h : m = 0 then .zero sign else .finite sign m e (Nat.pos_of_ne_zero h)

/-- Membership in an interval, in units of the last place. -/
theorem roundsTo_of_scaled (grid : OnGrid m e) (low : (lowQuarters m e : Rat) ≤ 4 * w)
    (high : w ≤ m + 1 / 2)
    (ends : m % 2 = 1 → (lowQuarters m e : Rat) ≠ 4 * w ∧ w ≠ m + 1 / 2) :
    RoundsTo (w * 2 ^ e) m e := by
  have unit : (0 : Rat) < 2 ^ (e - 2) := by positivity
  have scaled : w * 2 ^ e = 4 * w * 2 ^ (e - 2) := by
    rw [zpow_sub₀ (by decide)]
    ring
  have upper : ((4 * m + 2 : Nat) : Rat) = 4 * (m + 1 / 2) := by
    push_cast
    ring
  refine ⟨grid, contains_iff.mpr ?_⟩
  rw [scaled, low_eq, high_eq, upper, Ne, Ne, mul_left_inj' unit.ne', mul_left_inj' unit.ne',
    mul_right_inj' (by norm_num)]
  refine ⟨⟨mul_le_mul_of_nonneg_right low unit.le,
    mul_le_mul_of_nonneg_right (by linarith) unit.le⟩, fun open' => ends ?_⟩
  have odd : m % 2 ≠ 0 := by simpa [Interval.around] using open'
  omega

/-- The integer nearest to a number in units of the last place is the mantissa, unless it has one
digit too many. -/
theorem NearestInteger.roundsTo (nearest : NearestInteger n w) (least : -1074 ≤ t) (nonneg : 0 ≤ w)
    (small : w < 2 ^ 53) (full : t = -1074 ∨ 2 ^ 52 ≤ w) :
    n < 2 ^ 53 ∧ RoundsTo (w * 2 ^ t) n t ∨ n = 2 ^ 53 ∧ RoundsTo (w * 2 ^ t) (2 ^ 52) (t + 1) := by
  obtain ⟨above, below, even⟩ := nearest
  have top : n < 2 ^ 53 + 1 := by
    have : (n : Rat) < 2 ^ 53 + 1 := by linarith
    exact_mod_cast this
  rcases Nat.lt_succ_iff_lt_or_eq.mp top with fits | carry
  · have grid : OnGrid n t := ⟨fits, least, full.symm.imp_left fun full => by
      have : (2 ^ 52 : Rat) < n + 1 := by linarith
      exact Nat.lt_succ_iff.mp (by exact_mod_cast this)⟩
    refine .inl ⟨fits, ?_⟩
    by_cases edge : n = 2 ^ 52 ∧ t ≠ -1074
    · -- Below a power of two the places are narrower, but the number is not below it.
      have floor : (2 ^ 52 : Rat) ≤ w := full.resolve_left edge.2
      have quarters : (lowQuarters n t : Rat) = 4 * 2 ^ 52 - 1 := by
        rw [lowQuarters, if_pos edge, edge.1]
        norm_num
      refine roundsTo_of_scaled grid (by linarith) below fun odd => ?_
      simp [edge.1] at odd
    · have quarters : (lowQuarters n t : Rat) ≤ 4 * w := by
        rw [lowQuarters, if_neg edge]
        rcases Nat.eq_zero_or_pos n with rfl | positive
        · simpa using nonneg
        · rw [Nat.cast_sub (by omega)]
          push_cast
          linarith
      refine roundsTo_of_scaled grid quarters below fun odd => ⟨?_, (even odd).2⟩
      rw [lowQuarters, if_neg edge, Nat.cast_sub (by omega)]
      have := (even odd).1
      push_cast
      exact fun same => this (by linarith)
  · have grid : OnGrid (2 ^ 52) (t + 1) := ⟨by decide, by omega, .inl le_rfl⟩
    have quarters : (lowQuarters (2 ^ 52) (t + 1) : Rat) = 2 * (2 ^ 53 - 1 / 2) := by
      rw [lowQuarters, if_pos ⟨rfl, by omega⟩]
      norm_num
    have halved : w * 2 ^ t = w / 2 * 2 ^ (t + 1) := by
      rw [zpow_add_one₀ (by decide)]
      ring
    rw [carry] at above
    push_cast at above
    refine .inr ⟨carry, ?_⟩
    rw [halved]
    refine roundsTo_of_scaled grid (by linarith) ?_ fun odd => by simp at odd
    push_cast
    linarith

theorem mantissa_ofMantissaAndAccuracy (m : Nat) (accuracy : Accuracy) :
    (ExtendedMantissa.ofMantissaAndAccuracy m accuracy).mantissa = m := by
  cases accuracy with
  | exact => rfl
  | inexact order => cases order <;> rfl

/-- A number that is moved down by `k` digits keeps the others. -/
theorem div_two_pow_lt {w : Rat} {m j k : Nat} (below : w < m + 1) (digits : m.log2 < j + k) :
    w / 2 ^ k < 2 ^ j := by
  have whole : m + 1 ≤ 2 ^ (j + k) :=
    Nat.lt_log2_self.trans_le (Nat.pow_le_pow_right (by decide) digits)
  rw [div_lt_iff₀ (by positivity), ← pow_add]
  exact below.trans_le (by exact_mod_cast whole)

theorem two_pow_le_div {w : Rat} {m j k : Nat} (above : m ≤ w) (nonzero : m ≠ 0)
    (digits : m.log2 = j + k) : 2 ^ j ≤ w / 2 ^ k := by
  have whole : 2 ^ (j + k) ≤ m := digits ▸ Nat.log2_self_le nonzero
  rw [le_div_iff₀ (by positivity), ← pow_add]
  exact above.trans' (by exact_mod_cast whole)

theorem roundWithAccuracy_eq
    (first : shiftToTargetExponent .binary64 m e accuracy = (x, t))
    (second : shiftToTargetExponent .binary64 x.roundedMantissa t .exact = (y, t')) (sign : Sign) :
    roundWithAccuracy .binary64 sign m e accuracy = unpacked sign y.mantissa t' := by
  rw [roundWithAccuracy, first]
  change (match shiftToTargetExponent .binary64 x.roundedMantissa t .exact with
    | (z, s) => unpacked sign z.mantissa s) = _
  rw [second]

/-- Rounding finds the magnitude on the grid, provided that the mantissa has digits enough or that
the exponent is the least already. -/
theorem roundWithAccuracy_spec (represents : Represents (.ofMantissaAndAccuracy m accuracy) w)
    (enough : e ≤ Format.binary64.targetExponent (totalExponent m e)) (sign : Sign) :
    ∃ m' e', RoundsTo (w * 2 ^ e) m' e' ∧
      roundWithAccuracy .binary64 sign m e accuracy = unpacked sign m' e' := by
  generalize target : Format.binary64.targetExponent (totalExponent m e) = t at enough
  have first := shiftToTargetExponent_eq m e accuracy target enough
  have shifted := represents.shiftRight (t - e).toNat
  rw [targetExponent_eq] at target
  obtain ⟨k, hk⟩ : ∃ k, (t - e).toNat = k := ⟨_, rfl⟩
  rw [hk] at first shifted
  have scaled : w * 2 ^ e = w / 2 ^ k * 2 ^ t := by
    rw [show t = k + e by omega, zpow_add₀ (by decide), zpow_natCast]
    field_simp
  obtain ⟨low, high⟩ := represents.bounds
  rw [mantissa_ofMantissaAndAccuracy] at low high
  have nonneg : 0 ≤ w / 2 ^ k := div_nonneg ((Nat.cast_nonneg m).trans low) (by positivity)
  have small : w / 2 ^ k < 2 ^ 53 := div_two_pow_lt high (by omega)
  have full : t = -1074 ∨ 2 ^ 52 ≤ w / 2 ^ k := by
    refine or_iff_not_imp_left.mpr fun above => ?_
    have log : m.log2 = 52 + k := by omega
    have nonzero : m ≠ 0 := fun zero => by
      rw [zero, Nat.log2_zero] at log
      omega
    exact two_pow_le_div low nonzero log
  have least : -1074 ≤ t := by omega
  have nearest := shifted.nearestInteger
  rw [scaled]
  rcases nearest.roundsTo least nonneg small full with ⟨fits, rounds⟩ | ⟨carry, rounds⟩
  · exact ⟨_, _, rounds, roundWithAccuracy_eq first (shiftToTargetExponent_self fits least) sign⟩
  · have second := shiftToTargetExponent_carry least
    rw [← carry] at second
    exact ⟨_, _, rounds, roundWithAccuracy_eq first second sign⟩

theorem log2_shiftLeft (positive : 0 < m) (k : Nat) : (m <<< k).log2 = m.log2 + k := by
  rw [Nat.shiftLeft_eq, Nat.log2_eq_iff (by positivity)]
  have lower := Nat.log2_self_le positive.ne'
  have upper := Nat.lt_log2_self (n := m)
  rw [show m.log2 + k + 1 = m.log2 + 1 + k by omega, pow_add, pow_add _ (m.log2 + 1)]
  exact ⟨Nat.mul_le_mul_right _ lower, Nat.mul_lt_mul_of_pos_right upper (by positivity)⟩

theorem magnitude_shiftLeft (m k : Nat) (e : Int) :
    ((m <<< k : Nat) : Rat) * 2 ^ (e - k) = magnitude m e := by
  rw [magnitude, Nat.shiftLeft_eq, zpow_sub₀ (by decide), zpow_natCast]
  push_cast
  field_simp

/-- A magnitude is rounded once. -/
theorem round_spec (positive : 0 < m) (e : Int) (sign : Sign) :
    ∃ m' e', RoundsTo (magnitude m e) m' e' ∧
      Float.Model.UnpackedFloat.round .binary64 sign m e = unpacked sign m' e' := by
  have enough {s : Nat}
      (hs : (e - Format.binary64.targetExponent (totalExponent m e)).toNat = s) :
      e - s ≤ Format.binary64.targetExponent (totalExponent (m <<< s) (e - s)) := by
    rw [targetExponent_eq] at hs ⊢
    rw [log2_shiftLeft positive]
    push_cast
    omega
  have rounded := roundWithAccuracy_spec (.exact _) (enough rfl) sign
  rwa [magnitude_shiftLeft] at rounded

/-- A product of magnitudes is rounded once, if the factors have digits enough. -/
theorem mul_spec (positive₁ : 0 < m₁) (positive₂ : 0 < m₂) (enough : 52 ≤ (m₁ * m₂).log2)
    (e₁ e₂ : Int) (sign₁ sign₂ : Sign) :
    ∃ m e, RoundsTo (magnitude m₁ e₁ * magnitude m₂ e₂) m e ∧
      mul .binary64 (.finite sign₁ m₁ e₁ positive₁) (.finite sign₂ m₂ e₂ positive₂) =
        unpacked (sign₁ * sign₂) m e := by
  have enough : e₁ + e₂ ≤ Format.binary64.targetExponent (totalExponent (m₁ * m₂) (e₁ + e₂)) := by
    rw [targetExponent_eq]
    omega
  have product : ((m₁ * m₂ : Nat) : Rat) * 2 ^ (e₁ + e₂) = magnitude m₁ e₁ * magnitude m₂ e₂ := by
    rw [magnitude, magnitude, zpow_add₀ (by decide)]
    push_cast
    ring
  have rounded := roundWithAccuracy_spec (.exact _) enough (sign₁ * sign₂)
  rwa [product] at rounded

/-- A dividend that is moved up far enough gives a quotient of 53 digits. -/
theorem le_shiftLeft_div (positive₁ : 0 < m₁) (positive₂ : 0 < m₂)
    (far : m₂.log2 + 53 ≤ m₁.log2 + k) : 2 ^ 52 ≤ m₁ <<< k / m₂ := by
  rw [Nat.le_div_iff_mul_le positive₂]
  have below := Nat.lt_log2_self (n := m₂)
  have above := Nat.log2_self_le (Nat.shiftLeft_pos_iff.mpr positive₁ : 0 < m₁ <<< k).ne'
  rw [log2_shiftLeft positive₁] at above
  calc 2 ^ 52 * m₂ ≤ 2 ^ 52 * 2 ^ (m₂.log2 + 1) := Nat.mul_le_mul_left _ below.le
    _ = 2 ^ (52 + (m₂.log2 + 1)) := (pow_add ..).symm
    _ ≤ 2 ^ (m₁.log2 + k) := Nat.pow_le_pow_right (by decide) (by omega)
    _ ≤ m₁ <<< k := above

/-- A quotient of magnitudes is rounded once. -/
theorem div_spec (positive₁ : 0 < m₁) (positive₂ : 0 < m₂) (e₁ e₂ : Int) (sign₁ sign₂ : Sign) :
    ∃ m e, RoundsTo (magnitude m₁ e₁ / magnitude m₂ e₂) m e ∧
      div .binary64 (.finite sign₁ m₁ e₁ positive₁) (.finite sign₂ m₂ e₂ positive₂) =
        unpacked (sign₁ / sign₂) m e := by
  obtain ⟨t, ht⟩ : ∃ t, min (e₁ - e₂) (Format.binary64.targetExponent
      (totalExponent m₁ e₁ - totalExponent m₂ e₂)) = t := ⟨_, rfl⟩
  obtain ⟨k, hk⟩ : ∃ k, (e₁ - e₂ - t).toNat = k := ⟨_, rfl⟩
  have core : divCore .binary64 m₁ e₁ m₂ e₂ =
      (m₁ <<< k / m₂, t, accuracyOfFraction (m₁ <<< k % m₂) m₂) := by
    rw [divCore]
    simp only [ht, hk]
  rw [targetExponent_binary64, totalExponent, totalExponent] at ht
  have enough : t ≤ Format.binary64.targetExponent (totalExponent (m₁ <<< k / m₂) t) := by
    rw [targetExponent_eq]
    by_cases least : t ≤ -1074
    · omega
    · have digits := le_shiftLeft_div positive₁ positive₂ (k := k) (by omega)
      have log : 52 ≤ (m₁ <<< k / m₂).log2 := (Nat.le_log2 (by omega)).mpr digits
      omega
  have quotient : ((m₁ <<< k : Nat) : Rat) / m₂ * 2 ^ t = magnitude m₁ e₁ / magnitude m₂ e₂ := by
    rw [← magnitude_shiftLeft m₁ k, magnitude, show t = e₁ - k - e₂ by omega,
      zpow_sub₀ (by decide) (e₁ - k) e₂]
    field_simp
  have rounded := roundWithAccuracy_spec (.quotient _ positive₂) enough (sign₁ / sign₂)
  rw [quotient] at rounded
  have whole : div .binary64 (.finite sign₁ m₁ e₁ positive₁) (.finite sign₂ m₂ e₂ positive₂) =
      let q := divCore .binary64 m₁ e₁ m₂ e₂
      roundWithAccuracy .binary64 (sign₁ / sign₂) q.1 q.2.1 q.2.2 := rfl
  rwa [whole, core]

end Reckon.Binary64
