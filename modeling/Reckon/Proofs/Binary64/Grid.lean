import Reckon.Decimal.Shortest
import Mathlib.Algebra.Order.Field.Power
import Mathlib.Data.Rat.Lemmas
import Mathlib.Tactic.Linarith
import Mathlib.Tactic.Positivity
import Mathlib.Tactic.Ring

/-! The magnitudes of the doubles form a grid that is finest near zero. The numbers that round to a
point of the grid form an interval around it; the intervals follow each other without gaps and meet
in their ends, of which the point with the even mantissa takes its own. -/
namespace Reckon.Binary64

open Decimal (Interval)

/-- The magnitudes `m · 2^e` of the doubles, as if there were no largest one. They have 53 binary
digits, and all of them are in use unless the exponent is the least. -/
structure OnGrid (m : Nat) (e : Int) : Prop where
  digits : m < 2 ^ 53
  least : -1074 ≤ e
  full : 2 ^ 52 ≤ m ∨ e = -1074

def Before (m : Nat) (e : Int) (m' : Nat) (e' : Int) : Prop := e < e' ∨ e = e' ∧ m < m'

theorem before_or_eq (m : Nat) (e : Int) (m' : Nat) (e' : Int) :
    Before m e m' e' ∨ (m = m' ∧ e = e') ∨ Before m' e' m e := by
  unfold Before
  omega

/-- The lower end of an interval in quarters of the last place. -/
def lowQuarters (m : Nat) (e : Int) : Nat :=
  4 * m - if m = 2 ^ 52 ∧ e ≠ -1074 then 1 else 2

theorem low_eq (m : Nat) (e : Int) :
    (Interval.around m e).low = lowQuarters m e * (2 : Rat) ^ (e - 2) := rfl

theorem high_eq (m : Nat) (e : Int) :
    (Interval.around m e).high = (4 * m + 2 : Nat) * (2 : Rat) ^ (e - 2) := rfl

theorem magnitude_zero (e : Int) : magnitude 0 e = 0 := by simp [magnitude]

theorem magnitude_natural (n : Nat) : magnitude n 0 = n := by
  rw [magnitude, zpow_zero, mul_one]

theorem magnitude_nonneg (m : Nat) (e : Int) : 0 ≤ magnitude m e := by
  unfold magnitude
  positivity

theorem magnitude_pos (positive : 0 < m) (e : Int) : 0 < magnitude m e := by
  have : (0 : Rat) < m := by exact_mod_cast positive
  unfold magnitude
  positivity

theorem magnitude_eq_zero : magnitude m e = 0 ↔ m = 0 := by
  rw [magnitude, mul_eq_zero, Nat.cast_eq_zero, or_iff_left (by positivity)]

theorem magnitude_eq_quarters (m : Nat) (e : Int) :
    magnitude m e = (4 * m : Nat) * (2 : Rat) ^ (e - 2) := by
  rw [magnitude, zpow_sub₀ (by decide)]
  push_cast
  ring

theorem low_le_magnitude (m : Nat) (e : Int) : (Interval.around m e).low ≤ magnitude m e := by
  have unit : (0 : Rat) < 2 ^ (e - 2) := by positivity
  have quarters : lowQuarters m e ≤ 4 * m := Nat.sub_le ..
  rw [low_eq, magnitude_eq_quarters]
  exact mul_le_mul_of_nonneg_right (by exact_mod_cast quarters) unit.le

theorem low_nonneg (m : Nat) (e : Int) : 0 ≤ (Interval.around m e).low := by
  rw [low_eq]
  positivity

theorem high_eq_magnitude (m : Nat) (e : Int) :
    (Interval.around m e).high = magnitude m e + 2 ^ e / 2 := by
  rw [high_eq, magnitude, zpow_sub₀ (by decide)]
  push_cast
  ring

theorem magnitude_lt_high (m : Nat) (e : Int) : magnitude m e < (Interval.around m e).high := by
  have unit : (0 : Rat) < 2 ^ e := by positivity
  rw [high_eq_magnitude]
  linarith

/-- The point behind an earlier one does not lie behind a later one. They are the same point only if
one of the two mantissas is odd. -/
theorem succ_le_of_before (h : OnGrid m e) (h' : OnGrid m' e') (before : Before m e m' e') :
    magnitude m e + 2 ^ e ≤ magnitude m' e' ∧
      (magnitude m e + 2 ^ e = magnitude m' e' → m % 2 = 1 ∨ m' % 2 = 1) := by
  obtain ⟨k, rfl⟩ : ∃ k : Nat, e' = e + k := ⟨(e' - e).toNat, by unfold Before at before; omega⟩
  have unit : (0 : Rat) < 2 ^ e := by positivity
  have next : magnitude m e + 2 ^ e = (m + 1 : Nat) * 2 ^ e := by
    rw [magnitude]
    push_cast
    ring
  have later : magnitude m' (e + k) = (m' * 2 ^ k : Nat) * 2 ^ e := by
    rw [magnitude, zpow_add₀ (by decide), zpow_natCast]
    push_cast
    ring
  have places : m + 1 ≤ m' * 2 ^ k ∧ (m + 1 = m' * 2 ^ k → m % 2 = 1 ∨ m' % 2 = 1) := by
    have := h.digits
    have := h.least
    have := h'.full
    rcases Nat.eq_zero_or_pos k with rfl | positive
    · unfold Before at before
      rw [pow_zero, Nat.mul_one]
      omega
    · obtain ⟨j, rfl⟩ := Nat.exists_eq_add_one.mpr positive
      have double : m' * 2 ^ (j + 1) = m' * 2 ^ j * 2 := by ring
      have : m' ≤ m' * 2 ^ j := Nat.le_mul_of_pos_right _ (by positivity)
      omega
  rw [next, later, mul_left_inj' unit.ne']
  exact ⟨mul_le_mul_of_nonneg_right (by exact_mod_cast places.1) unit.le,
    fun same => places.2 (by exact_mod_cast same)⟩

/-- An earlier point does not lie behind the point before a later one, which is as far below the
interval of the later point as this point is above. -/
theorem le_pred_of_before (h : OnGrid m e) (h' : OnGrid m' e') (before : Before m e m' e') :
    magnitude m e + magnitude m' e' ≤ 2 * (Interval.around m' e').low := by
  obtain ⟨k, rfl⟩ : ∃ k : Nat, e' = e + k := ⟨(e' - e).toNat, by unfold Before at before; omega⟩
  have unit : (0 : Rat) < 2 ^ (e - 2) := by positivity
  have shifted : (2 : Rat) ^ (e + k - 2 : Int) = 2 ^ k * 2 ^ (e - 2) := by
    rw [show e + k - 2 = k + (e - 2) by omega, zpow_add₀ (by decide), zpow_natCast]
  have sum : magnitude m e + magnitude m' (e + k) =
      (4 * m + 4 * m' * 2 ^ k : Nat) * 2 ^ (e - 2) := by
    rw [magnitude_eq_quarters, magnitude_eq_quarters, shifted]
    push_cast
    ring
  have low : 2 * (Interval.around m' (e + k)).low =
      (2 * lowQuarters m' (e + k) * 2 ^ k : Nat) * 2 ^ (e - 2) := by
    rw [low_eq, shifted]
    push_cast
    ring
  have quarters : 4 * m + 4 * m' * 2 ^ k ≤ 2 * lowQuarters m' (e + k) * 2 ^ k := by
    have := h.digits
    have := h.least
    have := h'.full
    rcases Nat.eq_zero_or_pos k with rfl | positive
    · have := h.full
      unfold Before at before
      rw [lowQuarters, pow_zero, Nat.mul_one, Nat.mul_one]
      split <;> omega
    · -- All digits of the later point are in use.
      obtain ⟨j, rfl⟩ := Nat.exists_eq_add_one.mpr positive
      obtain ⟨rest, hrest⟩ : ∃ rest, 2 * lowQuarters m' (e + (j + 1 : Nat)) = 4 * m' + rest ∧
          2 ^ 54 - 2 ≤ rest := by
        refine ⟨2 * lowQuarters m' (e + (j + 1 : Nat)) - 4 * m', ?_⟩
        rw [lowQuarters]
        split <;> omega
      have double : rest * 2 ^ (j + 1) = rest * 2 ^ j * 2 := by ring
      have : rest ≤ rest * 2 ^ j := Nat.le_mul_of_pos_right _ (by positivity)
      rw [hrest.1, Nat.add_mul, Nat.add_comm]
      omega
  rw [sum, low]
  exact mul_le_mul_of_nonneg_right (by exact_mod_cast quarters) unit.le

/-- The interval of an earlier point ends where that of a later one begins, or before, and not both
ends are taken. -/
theorem around_separated (h : OnGrid m e) (h' : OnGrid m' e') (before : Before m e m' e') :
    (Interval.around m e).high ≤ (Interval.around m' e').low ∧
      ((Interval.around m e).high = (Interval.around m' e').low → m % 2 = 1 ∨ m' % 2 = 1) := by
  obtain ⟨next, odd⟩ := succ_le_of_before h h' before
  have previous := le_pred_of_before h h' before
  rw [high_eq_magnitude]
  exact ⟨by linarith, fun same => odd (by linarith)⟩

theorem contains_iff {i : Interval} : i.contains v ↔
    (i.low ≤ v ∧ v ≤ i.high) ∧ (i.closed = false → i.low ≠ v ∧ v ≠ i.high) := by
  cases closed : i.closed
  · simp [Interval.contains, closed, lt_iff_le_and_ne]
    tauto
  · simp [Interval.contains, closed]

/-- `m · 2^e` is the magnitude that `v` rounds to, ties to the even mantissa. -/
structure RoundsTo (v : Rat) (m : Nat) (e : Int) : Prop where
  grid : OnGrid m e
  mem : (Interval.around m e).contains v

namespace RoundsTo

theorem low_le (h : RoundsTo v m e) : (Interval.around m e).low ≤ v := (contains_iff.mp h.mem).1.1

theorem le_high (h : RoundsTo v m e) : v ≤ (Interval.around m e).high := (contains_iff.mp h.mem).1.2

/-- What rounds to the earlier of two points is the smaller number. -/
theorem lt_of_before (h : RoundsTo v m e) (h' : RoundsTo v' m' e') (before : Before m e m' e') :
    v < v' := by
  obtain ⟨apart, ends⟩ := around_separated h.grid h'.grid before
  obtain ⟨⟨-, high⟩, own⟩ := contains_iff.mp h.mem
  obtain ⟨⟨low, -⟩, own'⟩ := contains_iff.mp h'.mem
  refine lt_of_le_of_ne (high.trans (apart.trans low)) fun same => ?_
  have atHigh : v = (Interval.around m e).high := le_antisymm high (same ▸ apart.trans low)
  have atLow : (Interval.around m' e').low = v' := le_antisymm low (same ▸ high.trans apart)
  rcases ends (by rw [← atHigh, atLow, same]) with odd | odd
  · exact (own (by simp [Interval.around, odd])).2 atHigh
  · exact (own' (by simp [Interval.around, odd])).1 atLow

/-- A number rounds to one magnitude only. -/
theorem unique (h : RoundsTo v m e) (h' : RoundsTo v m' e') : m = m' ∧ e = e' := by
  rcases before_or_eq m e m' e' with before | same | behind
  · exact absurd (h.lt_of_before h' before) (lt_irrefl v)
  · exact same
  · exact absurd (h'.lt_of_before h behind) (lt_irrefl v)

theorem mono (h : RoundsTo v m e) (h' : RoundsTo v' m' e') (le : v ≤ v') :
    magnitude m e ≤ magnitude m' e' := by
  rcases before_or_eq m e m' e' with before | ⟨rfl, rfl⟩ | behind
  · have apart := (around_separated h.grid h'.grid before).1
    exact (magnitude_lt_high m e).le.trans (apart.trans (low_le_magnitude m' e'))
  · exact le_rfl
  · exact absurd (h'.lt_of_before h behind) (not_lt.mpr le)

/-- No magnitude on the grid is nearer to a number than the one that it rounds to. -/
theorem nearest (h : RoundsTo v m e) (other : OnGrid m' e') :
    |magnitude m e - v| ≤ |magnitude m' e' - v| := by
  have low := h.low_le
  have high := h.le_high
  rcases before_or_eq m e m' e' with before | ⟨rfl, rfl⟩ | behind
  · have next := (succ_le_of_before h.grid other before).1
    have unit : (0 : Rat) < 2 ^ e := by positivity
    rw [high_eq_magnitude] at high
    refine le_trans ?_ (le_abs_self _)
    rw [abs_le]
    constructor <;> linarith
  · exact le_rfl
  · have previous := le_pred_of_before other h.grid behind
    have below := low_le_magnitude m e
    refine le_trans ?_ (neg_le_abs _)
    rw [abs_le]
    constructor <;> linarith

end RoundsTo

/-- A magnitude on the grid stays as it is. -/
theorem OnGrid.roundsTo (h : OnGrid m e) : RoundsTo (magnitude m e) m e := by
  have unit : (0 : Rat) < 2 ^ (e - 2) := by positivity
  refine ⟨h, contains_iff.mpr ⟨⟨low_le_magnitude m e, (magnitude_lt_high m e).le⟩, fun open' =>
    ⟨?_, (magnitude_lt_high m e).ne⟩⟩⟩
  have odd : m % 2 ≠ 0 := by simpa [Interval.around] using open'
  have quarters : lowQuarters m e ≠ 4 * m := by
    rw [lowQuarters]
    split <;> omega
  rw [low_eq, magnitude_eq_quarters, Ne, mul_left_inj' unit.ne', Nat.cast_inj]
  exact quarters

/-- A point of the grid is found again from its magnitude. -/
theorem OnGrid.eq_of_magnitude (h : OnGrid m e) (h' : OnGrid m' e')
    (same : magnitude m e = magnitude m' e') : m = m' ∧ e = e' :=
  (same ▸ h.roundsTo).unique h'.roundsTo

/-- The next larger magnitude is farther away than the last of 53 digits. -/
theorem OnGrid.spacing (h : OnGrid m e) (h' : OnGrid m' e')
    (less : magnitude m e < magnitude m' e') :
    magnitude m e / 2 ^ 53 ≤ magnitude m' e' - magnitude m e := by
  have before : Before m e m' e' := by
    rcases before_or_eq m e m' e' with before | ⟨rfl, rfl⟩ | behind
    · exact before
    · exact absurd less (lt_irrefl _)
    · exact absurd less (h'.roundsTo.lt_of_before h.roundsTo behind).not_gt
  have next := (succ_le_of_before h h' before).1
  have digits : (m : Rat) ≤ 2 ^ 53 := by exact_mod_cast h.digits.le
  have unit : (0 : Rat) < 2 ^ e := by positivity
  have places : magnitude m e ≤ 2 ^ 53 * 2 ^ e := mul_le_mul_of_nonneg_right digits unit.le
  linarith

def maxExponent : Int := 971

/-- The least number that rounds to no finite double. -/
def overflow : Rat := 2 ^ 1024 - 2 ^ 970

theorem half_least : (2 : Rat) ^ (-1074 : Int) / 2 = 2 ^ (-1075 : Int) :=
  (zpow_sub_one₀ two_ne_zero (-1074)).symm

theorem high_zero : (Interval.around 0 (-1074)).high = 2 ^ (-1075 : Int) := by
  rw [high_eq_magnitude, magnitude_zero, half_least, zero_add]

/-- Half the least double other than zero rounds to zero. -/
theorem roundsTo_zero (nonneg : 0 ≤ v) (small : v ≤ 2 ^ (-1075 : Int)) : RoundsTo v 0 (-1074) := by
  refine ⟨⟨by decide, le_rfl, .inr rfl⟩, contains_iff.mpr ⟨⟨?_, high_zero ▸ small⟩, nofun⟩⟩
  rw [low_eq, lowQuarters]
  simpa using nonneg

theorem low_overflow : (Interval.around (2 ^ 52) (maxExponent + 1)).low = overflow := by
  have unit : (2 : Rat) ^ (maxExponent + 1 - 2) = 2 ^ 970 := zpow_natCast 2 970
  have digits : ((lowQuarters (2 ^ 52) (maxExponent + 1) : Nat) : Rat) = 2 ^ 54 - 1 := by
    rw [show lowQuarters (2 ^ 52) (maxExponent + 1) = 2 ^ 54 - 1 by rfl]
    norm_num
  have power : (2 : Rat) ^ 1024 = 2 ^ 54 * 2 ^ 970 := pow_add 2 54 970
  rw [low_eq, unit, digits, overflow, power, sub_one_mul]

theorem roundsTo_overflow : RoundsTo overflow (2 ^ 52) (maxExponent + 1) := by
  rw [← low_overflow]
  refine ⟨⟨by decide, by decide, .inl le_rfl⟩, contains_iff.mpr ⟨⟨le_rfl, ?_⟩, nofun⟩⟩
  exact (low_le_magnitude _ _).trans (magnitude_lt_high _ _).le

namespace RoundsTo

/-- What is at most half the least double rounds to zero, and nothing else does. -/
theorem eq_zero_iff (h : RoundsTo v m e) : m = 0 ↔ v ≤ 2 ^ (-1075 : Int) := by
  have full := h.grid.full
  constructor
  · rintro rfl
    obtain rfl : e = -1074 := by omega
    exact high_zero ▸ h.le_high
  · intro small
    have nonneg : 0 ≤ v := (low_nonneg m e).trans h.low_le
    exact (h.unique (roundsTo_zero nonneg small)).1

/-- A number rounds to an infinite double from a bound on. -/
theorem overflow_iff (h : RoundsTo v m e) : maxExponent < e ↔ overflow ≤ v := by
  have full := h.grid.full
  rw [maxExponent]
  constructor
  · intro large
    rcases before_or_eq m e (2 ^ 52) (maxExponent + 1) with before | ⟨rfl, rfl⟩ | behind
    · unfold Before maxExponent at before
      omega
    · exact low_overflow ▸ h.low_le
    · exact (roundsTo_overflow.lt_of_before h behind).le
  · intro large
    by_contra small
    have before : Before m e (2 ^ 52) (maxExponent + 1) := .inl (by rw [maxExponent]; omega)
    exact absurd (h.lt_of_before roundsTo_overflow before) (not_lt.mpr large)

theorem finite_iff (h : RoundsTo v m e) : e ≤ maxExponent ↔ v < overflow := by
  rw [← not_lt, h.overflow_iff, not_le]

theorem magnitude_lt_overflow (h : RoundsTo v m e) (small : v < overflow) :
    magnitude m e < overflow :=
  h.grid.roundsTo.finite_iff.mp (h.finite_iff.mpr small)

/-- Rounding moves a number by half a unit of the last place. -/
theorem error (h : RoundsTo v m e) : |magnitude m e - v| ≤ 2 ^ e / 2 := by
  have unit : (0 : Rat) < 2 ^ (e - 2) := by positivity
  have low : magnitude m e - 2 ^ e / 2 ≤ (Interval.around m e).low := by
    have quarters : (4 * m : Nat) - 2 ≤ (lowQuarters m e : Rat) := by
      rw [lowQuarters, sub_le_iff_le_add]
      norm_cast
      split <;> omega
    have half : (2 : Rat) ^ e / 2 = 2 * 2 ^ (e - 2) := by
      rw [zpow_sub₀ (by decide)]
      ring
    rw [magnitude_eq_quarters, half, low_eq, ← sub_mul]
    exact mul_le_mul_of_nonneg_right quarters unit.le
  have low' := h.low_le
  have high := h.le_high
  rw [high_eq_magnitude] at high
  rw [abs_le]
  constructor <;> linarith

/-- A number with all digits is moved by a part of it that they bound. -/
theorem relative_error (h : RoundsTo v m e) (full : 2 ^ 52 ≤ m) :
    |magnitude m e - v| ≤ magnitude m e / 2 ^ 53 := by
  have digits : (2 ^ 52 : Rat) ≤ m := by exact_mod_cast full
  have unit : (0 : Rat) < 2 ^ e := by positivity
  have places : (2 : Rat) ^ 52 * 2 ^ e ≤ magnitude m e := mul_le_mul_of_nonneg_right digits unit.le
  have := h.error
  linarith

end RoundsTo

theorem onGrid_one : OnGrid (2 ^ 52) (-52) := ⟨by decide, by decide, .inl le_rfl⟩

theorem magnitude_one : magnitude (2 ^ 52) (-52) = 1 := by
  norm_num [magnitude, zpow_neg]

theorem RoundsTo.one_le (h : RoundsTo v m e) (le : 1 ≤ v) : 1 ≤ magnitude m e := by
  have one := onGrid_one.roundsTo
  rw [magnitude_one] at one
  exact magnitude_one ▸ one.mono h le

/-- Only the least doubles have less than all digits. -/
theorem OnGrid.full_of_le (h : OnGrid m e) (le : 2 ^ (-1021 : Int) ≤ magnitude m e) :
    2 ^ 52 ≤ m := by
  refine h.full.resolve_right fun least => ?_
  have digits : (m : Rat) < 2 ^ 53 := by exact_mod_cast h.digits
  have small : magnitude m e < 2 ^ (-1021 : Int) :=
    calc magnitude m e = m * 2 ^ (-1074 : Int) := by rw [magnitude, least]
      _ < 2 ^ 53 * 2 ^ (-1074 : Int) := mul_lt_mul_of_pos_right digits (by positivity)
      _ = 2 ^ (-1021 : Int) := by
        rw [← zpow_natCast, ← zpow_add₀ two_ne_zero]
        rfl
  exact small.not_ge le

theorem RoundsTo.relative_error_of_le (h : RoundsTo v m e)
    (large : 2 ^ (-52 : Int) ≤ magnitude m e) : |magnitude m e - v| ≤ magnitude m e / 2 ^ 53 :=
  h.relative_error
    (h.grid.full_of_le ((zpow_le_zpow_right₀ (by norm_num) (by decide)).trans large))

/-- What rounds to one or more has all digits. -/
theorem RoundsTo.full_of_one_le (h : RoundsTo v m e) (le : 1 ≤ v) : 2 ^ 52 ≤ m :=
  h.grid.full_of_le ((zpow_le_one_of_nonpos₀ (by norm_num) (by decide)).trans (h.one_le le))

theorem RoundsTo.pos_of_one_le (h : RoundsTo v m e) (le : 1 ≤ v) : 0 < m :=
  (by decide : 0 < 2 ^ 52).trans_le (h.full_of_one_le le)

theorem two_pow_lt_overflow (short : k ≤ 970) : (2 : Rat) ^ k < overflow := by
  have split : (2 : Rat) ^ 1024 = 2 ^ 970 * 2 ^ 54 := pow_add 2 970 54
  rw [overflow, split, ← mul_sub_one]
  calc (2 : Rat) ^ k ≤ 2 ^ 970 * 1 := by
        rw [mul_one]
        exact pow_le_pow_right₀ (by norm_num) short
    _ < 2 ^ 970 * (2 ^ 54 - 1) := mul_lt_mul_of_pos_left (by norm_num) (by positivity)

theorem one_lt_overflow : 1 < overflow := by
  simpa using two_pow_lt_overflow (Nat.zero_le 970)

theorem overflow_le_ten_pow : overflow ≤ 10 ^ 1024 :=
  calc overflow = 2 ^ 1024 - 2 ^ 970 := rfl
    _ ≤ 2 ^ 1024 := sub_le_self _ (by positivity)
    _ ≤ 10 ^ 1024 := pow_le_pow_left₀ (by norm_num) (by norm_num) _

/-- Half the least double is less than what a number in range can be divided down to. -/
theorem tiny_lt_inv_overflow : (2 : Rat) ^ (-1075 : Int) < 1 / overflow := by
  have bound : overflow < 2 ^ 1075 := by
    have power : (0 : Rat) < 2 ^ 970 := by positivity
    exact (sub_lt_self _ power).trans (pow_lt_pow_right₀ (by norm_num) (by norm_num))
  rw [zpow_neg, ← one_div]
  exact one_div_lt_one_div_of_lt (one_pos.trans one_lt_overflow) (by exact_mod_cast bound)

end Reckon.Binary64
