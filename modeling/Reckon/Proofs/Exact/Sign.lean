import Reckon.Proofs.Exact.Double
import Reckon.Proofs.Exact.Scientific
import Reckon.Proofs.Exact.Truncation

/-! What the text of an exact number keeps of its sign. A number too small to show a digit is
written as its double, which can be zero or no number. -/
namespace Reckon.Exact

open Binary64 (overflow)
open Numeral (Digits)

theorem eq_zero_of_digit (digit : c.isDigit) (zero : c.toNat - '0'.toNat = 0) : c = '0' := by
  have bounds : 48 ≤ c.toNat ∧ c.toNat ≤ 57 := by
    simpa [Char.isDigit, UInt32.le_iff_toNat_le] using digit
  have code : c.toNat = '0'.toNat := by
    change c.toNat - 48 = 0 at zero
    change c.toNat = 48
    omega
  exact Char.toNat_inj.mp code

/-- Digits that stand for nothing end in a zero. -/
theorem getLast?_of_value_eq_zero (digits : Digits cs 0) : cs.getLast? = some '0' := by
  obtain ⟨front, c, rfl⟩ := (List.eq_nil_or_concat' cs).resolve_left digits.ne_nil
  have value := digits.value
  rw [Nat.ofDigitChars_append, Nat.ofDigitChars_cons, Nat.ofDigitChars_nil] at value
  rw [List.getLast?_concat, eq_zero_of_digit (digits.isDigit c (by simp)) (by omega)]

/-- A number below the last place shows nothing, neither before nor behind the point. -/
theorem shows_nothing {q : Rat} (small : |q| < 1 / 10 ^ 20) :
    q.num.natAbs / q.den = 0 ∧ fraction q = [] := by
  have floor : ⌊|q| * 10 ^ 20⌋ = 0 := by
    rw [Int.floor_eq_zero_iff]
    exact ⟨by positivity, by linarith⟩
  have nothing : shown q = 0 := by simp [shown_eq_floor, floor]
  obtain ⟨-, isDigit, value⟩ := fraction_spec q
  rw [shown, ← value] at nothing
  have whole : (0 : Rat) ≤ (q.num.natAbs / q.den : Nat) := Nat.cast_nonneg _
  have places : (0 : Rat) ≤ Nat.ofDigitChars 10 (fraction q) 0 / 10 ^ (fraction q).length := by
    positivity
  refine ⟨by exact_mod_cast (by linarith : ((q.num.natAbs / q.den : Nat) : Rat) = 0), ?_⟩
  by_contra occupied
  have zero : (Nat.ofDigitChars 10 (fraction q) 0 : Rat) / 10 ^ (fraction q).length = 0 := by
    linarith
  rw [div_eq_zero_iff, or_iff_left (by positivity), Nat.cast_eq_zero] at zero
  exact fraction_getLast? q (getLast?_of_value_eq_zero ⟨occupied, isDigit, zero⟩)

/-- A number below the last place is written as its double. -/
theorem render_small {q : Rat} (nonzero : q ≠ 0) (small : |q| < 1 / 10 ^ 20) :
    render q = Binary64.renderScientific (toFloat q) := by
  obtain ⟨whole, places⟩ := shows_nothing small
  have fractional : q.den ≠ 1 := fun integral => by
    rw [integral, Nat.div_one] at whole
    exact nonzero (by simpa using whole)
  rw [render, if_neg fractional, places]
  exact if_pos whole

theorem sign_if {q r : Rat} (nonzero : q ≠ 0) (positive : 0 < r) :
    SignType.sign (if q < 0 then -r else r) = SignType.sign q := by
  rcases lt_or_gt_of_ne nonzero with negative | above
  · simp [negative, positive]
  · simp [above, above.not_gt, positive]

theorem num_lt_den {q : Rat} (small : |q| < 1) : (q.num.natAbs : Rat) < q.den := by
  rwa [abs_eq_div, div_lt_one (by exact_mod_cast q.pos)] at small

theorem shown_pos {q : Rat} (large : 1 / 10 ^ 20 ≤ |q|) : 0 < shown q := by
  have unit : 1 ≤ ⌊|q| * 10 ^ 20⌋ := by
    rw [Int.le_floor, Int.cast_one]
    linarith
  have positive : (0 : Rat) < ⌊|q| * 10 ^ 20⌋ := by exact_mod_cast unit
  rw [shown_eq_floor]
  positivity

/-- A double that is neither infinite nor zero keeps its sign in scientific notation. -/
theorem read_renderScientific_sign {q : Rat} (nonzero : q ≠ 0)
    (finite : Binary64.ofFloat x = .finite (q < 0) m e) (positive : 0 < m) :
    ∃ r, read (Binary64.renderScientific x) = .ok r ∧ SignType.sign r = SignType.sign q := by
  obtain ⟨grid, -⟩ := Binary64.grid_of_finite finite positive
  have value : 0 < (Binary64.decimal m e).value := by
    rw [Binary64.decimal, if_neg positive.ne']
    exact Decimal.shortest_pos grid positive
  refine ⟨_, read_renderScientific finite, ?_⟩
  simpa using sign_if nonzero value

/-- The text of a number other than zero is read as a number of its sign if it shows a digit, or
else if the denominator is in the range of the doubles, and only then. -/
theorem render_keeps_sign (q : Rat) (nonzero : q ≠ 0) :
    (∃ r, read (render q) = .ok r ∧ SignType.sign r = SignType.sign q) ↔
      1 / 10 ^ 20 ≤ |q| ∨ q.den < overflow := by
  rcases le_or_gt (1 / 10 ^ 20) |q| with large | small
  · obtain ⟨p, short, cs, text, written, -⟩ := written_signed fun _ empty => shows_of_le large empty
    have value := written.read (sign_mark q) text (short.trans (by decide))
    refine iff_of_true ⟨_, value, ?_⟩ (.inl large)
    simpa using sign_if nonzero (shown_pos large)
  · have less : (q.num.natAbs : Rat) < q.den := num_lt_den (small.trans (by norm_num))
    rw [or_iff_right small.not_ge, render_small nonzero small]
    rcases lt_or_ge (q.den : Rat) overflow with den | den
    · obtain ⟨_, _, _, _, m, e, _, _, _, finite, positive, double⟩ :=
        toFloat_finite (less.trans den) den
      rw [Binary64.make_finite (positive nonzero) finite] at double
      exact iff_of_true (read_renderScientific_sign nonzero double (positive nonzero)) den
    · refine iff_of_false ?_ den.not_gt
      rintro ⟨r, value, sign⟩
      rcases lt_or_ge (q.num.natAbs : Rat) overflow with num | num
      · -- The double is a zero.
        have zero := (read_renderScientific (toFloat_zero num den)).symm.trans value
        obtain rfl : 0 = r := by simpa [Binary64.decimal, Decimal.value] using zero
        exact nonzero (sign_eq_zero_iff.mp (sign.symm.trans sign_zero))
      · have none : (Binary64.ofFloat (toFloat q)).value? = none := by
          rw [toFloat_nan num den]
          rfl
        cases (read_renderScientific_of_value none).symm.trans value

/-- A number below the last place with a denominator in range. -/
theorem render_keeps_sign_small : (-3 / 10 ^ 25 : Rat) ≠ 0 ∧
    ∃ r, read (render (-3 / 10 ^ 25)) = .ok r ∧
      SignType.sign r = SignType.sign (-3 / 10 ^ 25 : Rat) := by
  have nonzero : (-3 / 10 ^ 25 : Rat) ≠ 0 := by norm_num
  have den : (-3 / 10 ^ 25 : Rat).den = 10 ^ 25 := by decide +kernel
  have range : ((-3 / 10 ^ 25 : Rat).den : Rat) < overflow := by
    rw [den]
    exact lt_trans (by norm_num) (Binary64.two_pow_lt_overflow (k := 100) (by decide))
  exact ⟨nonzero, (render_keeps_sign _ nonzero).mpr (.inr range)⟩

theorem one_div_ten_pow (k : Nat) :
    (1 / 10 ^ k : Rat).num = 1 ∧ (1 / 10 ^ k : Rat).den = 10 ^ k := by
  have inverse : (1 / 10 ^ k : Rat) = ((10 ^ k : Nat) : Rat)⁻¹ := by
    rw [one_div, Nat.cast_pow, Nat.cast_ofNat]
  rw [inverse]
  exact ⟨Rat.inv_natCast_num_of_pos (by positivity), Rat.inv_natCast_den_of_pos (by positivity)⟩

/-- The text of a number that is not zero is read as zero. -/
theorem render_forgets : (1 / 10 ^ 1024 : Rat) ≠ 0 ∧ read (render (1 / 10 ^ 1024)) = .ok 0 := by
  obtain ⟨num, den⟩ := one_div_ten_pow 1024
  have nonzero : (1 / 10 ^ 1024 : Rat) ≠ 0 := by positivity
  have small : |(1 / 10 ^ 1024 : Rat)| < 1 / 10 ^ 20 := by
    rw [abs_of_pos (by positivity)]
    exact one_div_lt_one_div_of_lt (by positivity) (pow_lt_pow_right₀ (by norm_num) (by norm_num))
  have numerator : ((1 / 10 ^ 1024 : Rat).num.natAbs : Rat) < overflow := by
    rw [num, Int.natAbs_one, Nat.cast_one]
    exact Binary64.one_lt_overflow
  have denominator : overflow ≤ (1 / 10 ^ 1024 : Rat).den := by
    rw [den, Nat.cast_pow, Nat.cast_ofNat]
    exact Binary64.overflow_le_ten_pow
  refine ⟨nonzero, ?_⟩
  rw [render_small nonzero small, read_renderScientific (toFloat_zero numerator denominator)]
  simp [Binary64.decimal, Decimal.value]

end Reckon.Exact
