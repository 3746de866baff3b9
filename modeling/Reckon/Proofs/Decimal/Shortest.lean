import Reckon.Proofs.Binary64.Grid
import Mathlib.Data.Nat.Digits.Defs
import Mathlib.Tactic.FieldSimp

/-! The decimal that is written for a double rounds to the double again. Its digits and its exponent
are bounded. -/
namespace Reckon.Decimal

open Binary64 (OnGrid RoundsTo magnitude maxExponent)

theorem tenTo_pos (e : Int) : 0 < tenTo e := by
  unfold tenTo
  positivity

theorem value_pos {d : Decimal} : 0 < d.value ↔ 0 < d.digits := by
  rw [value, mul_pos_iff_of_pos_right (tenTo_pos _), Nat.cast_pos]

/-- Moving zeros into the exponent does not change the value. -/
theorem value_strip (n : Nat) (e : Int) : (strip n e).value = n * tenTo e := by
  fun_induction strip n e with
  | case1 => simp [value]
  | case2 n e nonzero last ih =>
    have tens : (n : Rat) = (n / 10 : Nat) * 10 := by
      exact_mod_cast (Nat.div_mul_cancel (Nat.dvd_of_mod_eq_zero last)).symm
    rw [ih, tens, tenTo, tenTo, zpow_add_one₀ (by decide)]
    ring
  | case3 => rfl

theorem le_exponent_strip (positive : 0 < n) (e : Int) : e ≤ (strip n e).exponent := by
  fun_induction strip n e with
  | case1 => omega
  | case2 n e nonzero last ih =>
    have := ih (by omega)
    omega
  | case3 => exact le_rfl

/-- All digits of a double are its value. -/
theorem value_exactDigits (m : Nat) (e : Int) : (exactDigits m e).value = magnitude m e := by
  unfold exactDigits
  split
  · rename_i whole
    obtain ⟨k, rfl⟩ := Int.eq_ofNat_of_zero_le whole
    simp [value, tenTo, magnitude]
  · rename_i fraction
    obtain ⟨k, rfl⟩ : ∃ k : Nat, e = -k := ⟨(-e).toNat, by omega⟩
    have power : (10 : Rat) ^ k = 2 ^ k * 5 ^ k := by
      rw [← mul_pow]
      norm_num
    simp only [value, tenTo, magnitude, zpow_neg, zpow_natCast, power, neg_neg, Int.toNat_natCast,
      Nat.pow_eq]
    push_cast
    field_simp

theorem exponent_exactDigits (m : Nat) (least : -1074 ≤ e) :
    -1074 ≤ (exactDigits m e).exponent := by
  unfold exactDigits
  split <;> simp [least]

theorem candidate?_spec (h : candidate? i v j = some d) :
    i.contains d.value = true ∧ d.exponent = j := by
  simp only [candidate?] at h
  split at h
  · rename_i below above
    cases h
    split
    · exact ⟨below, rfl⟩
    · exact ⟨above, rfl⟩
  · rename_i below _
    cases h
    exact ⟨below, rfl⟩
  · rename_i _ above
    cases h
    exact ⟨above, rfl⟩
  · cases h

/-- A natural number below a power of ten has no more digits than the power. -/
theorem digitCount_le {k : Nat} (positive : 0 < k) (small : n < 10 ^ k) : digitCount n ≤ k :=
  Nat.toDigits_length 10 n k positive small

/-- Below one the scale is bounded by the digits of the denominator. -/
theorem le_scale {k : Nat} {v : Rat} (positive : 0 < k) (small : 1 ≤ v ∨ v.den < 10 ^ k) :
    1 - (k : Int) ≤ scale v := by
  unfold scale
  split
  · omega
  · rename_i below
    have den := small.resolve_left below
    have quotient : (v.den - 1) / v.num.toNat < 10 ^ k :=
      (Nat.div_le_self _ _).trans_lt ((Nat.sub_le _ _).trans_lt den)
    have := digitCount_le positive quotient
    omega

/-- A double is not below one, or its denominator is a power of two. -/
theorem one_le_or_den_le (positive : 0 < m) (e : Int) :
    1 ≤ magnitude m e ∨ (magnitude m e).den ≤ 2 ^ (-e).toNat := by
  rcases le_total 0 e with whole | fraction
  · obtain ⟨k, rfl⟩ := Int.eq_ofNat_of_zero_le whole
    have digits : (1 : Rat) ≤ m := by exact_mod_cast positive
    have power : (1 : Rat) ≤ 2 ^ k := one_le_pow₀ (by norm_num)
    exact .inl (by rw [magnitude, zpow_natCast]; exact one_le_mul_of_one_le_of_one_le digits power)
  · obtain ⟨k, rfl⟩ : ∃ k : Nat, e = -k := ⟨(-e).toNat, by omega⟩
    have quotient : magnitude m (-k) = Rat.divInt m (2 ^ k) := by
      rw [Rat.divInt_eq_div, magnitude, zpow_neg, zpow_natCast]
      push_cast
      rw [div_eq_mul_inv]
    have divides : (magnitude m (-k)).den ∣ 2 ^ k := by
      have := Rat.den_dvd m (2 ^ k)
      rw [← quotient] at this
      exact_mod_cast this
    rw [neg_neg, Int.toNat_natCast]
    exact .inr (Nat.le_of_dvd (by positivity) divides)

theorem le_scale_magnitude {k : Nat} (positive : 0 < m) (some : 0 < k) (least : -(k : Int) ≤ e) :
    1 - (k : Int) ≤ scale (magnitude m e) := by
  refine le_scale some ((one_le_or_den_le positive e).imp_right fun den => ?_)
  calc (magnitude m e).den ≤ 2 ^ (-e).toNat := den
    _ ≤ 2 ^ k := Nat.pow_le_pow_right (by decide) (by omega)
    _ < 10 ^ k := Nat.pow_lt_pow_left (by decide) some.ne'

/-- What is found on one of the grids, or all digits, before the zeros are moved. -/
theorem exists_shortest (grid : OnGrid m e) (positive : 0 < m) : ∃ d : Decimal,
    (Interval.around m e).contains d.value = true ∧ -1090 ≤ d.exponent ∧
      shortest m e = strip d.digits d.exponent := by
  have least := grid.least
  have scale := le_scale_magnitude (k := 1074) positive (by decide) least
  unfold shortest
  dsimp only
  cases found : (List.range maxDigits).findSome? fun (i : Nat) =>
      candidate? (.around m e) (magnitude m e) (Decimal.scale (magnitude m e) - 1 - i) with
  | none =>
    have all := exponent_exactDigits m least
    refine ⟨exactDigits m e, ?_, by omega, rfl⟩
    rw [value_exactDigits]
    exact grid.roundsTo.mem
  | some d =>
    obtain ⟨i, range, candidate⟩ := List.exists_of_findSome?_eq_some found
    obtain ⟨inside, exponent⟩ := candidate?_spec candidate
    have := List.mem_range.mp range
    rw [maxDigits] at this
    exact ⟨d, inside, by omega, rfl⟩

/-- The shortest decimal rounds to the double that it is written for. -/
theorem shortest_roundsTo (grid : OnGrid m e) (positive : 0 < m) :
    RoundsTo (shortest m e).value m e := by
  obtain ⟨d, inside, -, same⟩ := exists_shortest grid positive
  rw [same, value_strip]
  exact ⟨grid, inside⟩

theorem low_pos (positive : 0 < m) (e : Int) : 0 < (Interval.around m e).low := by
  have quarters : 0 < Binary64.lowQuarters m e := by
    rw [Binary64.lowQuarters]
    split <;> omega
  have : (0 : Rat) < Binary64.lowQuarters m e := by exact_mod_cast quarters
  rw [Binary64.low_eq]
  positivity

theorem shortest_pos (grid : OnGrid m e) (positive : 0 < m) : 0 < (shortest m e).value :=
  (low_pos positive e).trans_le (shortest_roundsTo grid positive).low_le

theorem le_exponent_shortest (grid : OnGrid m e) (positive : 0 < m) :
    -1090 ≤ (shortest m e).exponent := by
  obtain ⟨d, inside, exponent, same⟩ := exists_shortest grid positive
  have above : 0 < d.value := (low_pos positive e).trans_le (RoundsTo.low_le ⟨grid, inside⟩)
  rw [same]
  exact exponent.trans (le_exponent_strip (value_pos.mp above) _)

/-- The interval of a finite double ends below a power of ten. -/
theorem high_le (grid : OnGrid m e) (small : e ≤ maxExponent) :
    (Interval.around m e).high ≤ 10 ^ 1024 := by
  have digits : ((4 * m + 2 : Nat) : Rat) ≤ 2 ^ 55 := by
    have := grid.digits
    exact_mod_cast (by omega : 4 * m + 2 ≤ 2 ^ 55)
  have unit : (2 : Rat) ^ (e - 2) ≤ 2 ^ 969 := by
    rw [← zpow_natCast]
    exact zpow_le_zpow_right₀ (by norm_num) (by rw [maxExponent] at small; omega)
  calc (Interval.around m e).high = (4 * m + 2 : Nat) * (2 : Rat) ^ (e - 2) := Binary64.high_eq m e
    _ ≤ 2 ^ 55 * 2 ^ 969 := mul_le_mul digits unit (by positivity) (by positivity)
    _ = 2 ^ 1024 := (pow_add 2 55 969).symm
    _ ≤ 10 ^ 1024 := pow_le_pow_left₀ (by norm_num) (by norm_num) _

theorem exponent_le {k n : Nat} (positive : 0 < n) (bound : value ⟨n, e⟩ ≤ 10 ^ k) : e ≤ k := by
  have digits : (1 : Rat) ≤ n := by exact_mod_cast positive
  have power : (10 : Rat) ^ e ≤ 10 ^ (k : Int) := by
    rw [zpow_natCast]
    exact (le_mul_of_one_le_left (tenTo_pos e).le digits).trans bound
  exact (zpow_le_zpow_iff_right₀ (by norm_num)).mp power

theorem digits_lt {k j n : Nat} (bound : value ⟨n, e⟩ ≤ 10 ^ k) (least : -(j : Int) ≤ e) :
    n < 10 ^ (k + j + 1) := by
  have unit : (10 : Rat) ^ (-(j : Int)) ≤ tenTo e := zpow_le_zpow_right₀ (by norm_num) least
  have scaled : (n : Rat) * 10 ^ (-(j : Int)) ≤ 10 ^ k :=
    (mul_le_mul_of_nonneg_left unit (Nat.cast_nonneg _)).trans bound
  have whole : (n : Rat) ≤ 10 ^ (k + j) := by
    rwa [zpow_neg, ← div_eq_mul_inv, div_le_iff₀ (by positivity), zpow_natCast, ← pow_add] at scaled
  have : n ≤ 10 ^ (k + j) := by exact_mod_cast whole
  exact this.trans_lt (Nat.pow_lt_pow_right (by decide) (Nat.lt_succ_self _))

theorem bounds_of_value {k j : Nat} {d : Decimal} (positive : 0 < d.value)
    (bound : d.value ≤ 10 ^ k) (least : -(j : Int) ≤ d.exponent) :
    d.exponent.natAbs ≤ max k j ∧ digitCount d.digits ≤ k + j + 1 := by
  have most := exponent_le (value_pos.mp positive) bound
  exact ⟨by omega, digitCount_le (Nat.succ_pos _) (digits_lt bound least)⟩

/-- The digits and the exponent of what is written for a finite double are bounded. -/
theorem shortest_bounds (grid : OnGrid m e) (positive : 0 < m) (small : e ≤ maxExponent) :
    (shortest m e).exponent.natAbs ≤ 1090 ∧ digitCount (shortest m e).digits ≤ 2115 :=
  bounds_of_value (k := 1024) (j := 1090) (shortest_pos grid positive)
    ((shortest_roundsTo grid positive).le_high.trans (high_le grid small))
    (le_exponent_shortest grid positive)

end Reckon.Decimal
