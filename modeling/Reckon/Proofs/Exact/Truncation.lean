import Reckon.Proofs.Exact.Text
import Mathlib.Data.Rat.Floor
import Mathlib.Data.Sign.Basic

/-! What the text of an exact number says about the number. Behind twenty places it is cut off toward
zero, and what is left is read again. -/
namespace Reckon.Exact

theorem abs_eq_div (q : Rat) : |q| = q.num.natAbs / q.den := by
  rw [Rat.abs_def, Rat.divInt_eq_div]
  rfl

/-- What is shown is the number, cut off behind the shown places. -/
theorem shown_eq_floor (q : Rat) : shown q = ⌊|q| * 10 ^ 20⌋ / 10 ^ 20 := by
  have scaled : |q| * 10 ^ 20 = (q.num.natAbs * 10 ^ 20 : Nat) / (q.den : Nat) := by
    rw [abs_eq_div]
    push_cast
    ring
  have digits : q.num.natAbs * 10 ^ 20 / q.den =
      q.num.natAbs / q.den * 10 ^ 20 + shownFraction q := mul_pow_div _ _ q.den_pos
  rw [scaled, Rat.floor_natCast_div_natCast, ← Int.natCast_ediv, digits, Int.cast_natCast,
    Nat.cast_add, Nat.cast_mul, shown, shownPlaces]
  push_cast
  ring

/-- A number shows a digit if it is not below the last place. -/
theorem shows_of_le {q : Rat} (large : 1 / 10 ^ 20 ≤ |q|) (empty : fraction q = []) :
    q.num.natAbs / q.den ≠ 0 := by
  intro whole
  obtain ⟨-, -, value⟩ := fraction_spec q
  have none : (shownFraction q : Rat) / 10 ^ shownPlaces = 0 := by
    rw [← value, empty]
    simp
  have nothing : (⌊|q| * 10 ^ 20⌋ : Rat) / 10 ^ 20 = 0 := by
    rw [← shown_eq_floor, shown, whole, none]
    simp
  have unit : 1 ≤ ⌊|q| * 10 ^ 20⌋ := by
    rw [Int.le_floor, Int.cast_one]
    linarith
  have positive : (0 : Rat) < ⌊|q| * 10 ^ 20⌋ / 10 ^ 20 := by
    have : (0 : Rat) < ⌊|q| * 10 ^ 20⌋ := by exact_mod_cast unit
    positivity
  exact positive.ne' nothing

theorem shown_neg (q : Rat) : shown (-q) = shown q := by
  simp [shown, shownFraction]

/-- The text of a number that shows a digit is a decimal of what is shown, behind a minus if the
number is negative. -/
theorem written_signed {q : Rat}
    (shows : q.den ≠ 1 → fraction q = [] → q.num.natAbs / q.den ≠ 0) :
    ∃ p ≤ shownPlaces, ∃ cs, (render q).toList = (if q < 0 then ['-'] else []) ++ cs ∧
      Written p cs (shown q) ∧ (p ≠ 0 → cs.getLast? ≠ some '0') := by
  by_cases negative : q < 0
  · have shows' (fractional : (-q).den ≠ 1) (empty : fraction (-q) = []) :
        (-q).num.natAbs / (-q).den ≠ 0 := by
      simpa using shows (by simpa using fractional) (fraction_neg q ▸ empty)
    obtain ⟨p, short, written, last⟩ := written_render (by linarith : 0 ≤ -q) shows'
    rw [shown_neg] at written
    refine ⟨p, short, _, ?_, written, last⟩
    rw [render_neg negative shows, if_pos negative]
    simp
  · obtain ⟨p, short, written, last⟩ := written_render (not_lt.mp negative) shows
    exact ⟨p, short, _, by rw [if_neg negative]; rfl, written, last⟩

theorem sign_mark (q : Rat) : Numeral.Sign (if q < 0 then ['-'] else []) (q < 0) := by
  by_cases negative : q < 0
  · simpa [negative] using .minus
  · simpa [negative] using .none

theorem sign_mul (q r : Rat) (none : q = 0 → r = 0) :
    SignType.sign q * r = if q < 0 then -r else r := by
  rcases lt_trichotomy q 0 with negative | rfl | positive
  · simp [negative]
  · simp [none rfl]
  · simp [positive, positive.not_gt]

/-- The text of a number that is an integer or not below the last place is read as the number, cut
off behind twenty places. It is a decimal without exponent, with at most twenty digits behind a
point, the last of which is no zero. -/
theorem render_truncates (q : Rat) (shows : q.den = 1 ∨ 1 / 10 ^ 20 ≤ |q|) :
    read (render q) = .ok (SignType.sign q * ⌊|q| * 10 ^ 20⌋ / 10 ^ 20) ∧
    ∃ p ≤ 20, ∃ cs, (render q).toList = (if q < 0 then ['-'] else []) ++ cs ∧
      Written p cs (⌊|q| * 10 ^ 20⌋ / 10 ^ 20) ∧ (p ≠ 0 → cs.getLast? ≠ some '0') := by
  obtain ⟨p, short, cs, text, written, last⟩ := written_signed fun fractional empty =>
    shows_of_le (shows.resolve_left fractional) empty
  rw [shown_eq_floor] at written
  refine ⟨?_, p, short, cs, text, written, last⟩
  rw [written.read (sign_mark q) text (short.trans (by decide)), mul_div_assoc,
    sign_mul q _ (by rintro rfl; simp)]
  simp

/-- A negative third. -/
theorem render_truncates_third :
    ((-1 / 3 : Rat).den = 1 ∨ 1 / 10 ^ 20 ≤ |(-1 / 3 : Rat)|) ∧
      read (render (-1 / 3)) = .ok (-33333333333333333333 / 10 ^ 20) ∧
      ∃ p ≤ 20, ∃ cs, (render (-1 / 3)).toList = '-' :: cs ∧
        Written p cs (33333333333333333333 / 10 ^ 20) ∧ (p ≠ 0 → cs.getLast? ≠ some '0') := by
  have shows : (-1 / 3 : Rat).den = 1 ∨ 1 / 10 ^ 20 ≤ |(-1 / 3 : Rat)| := .inr (by norm_num [abs_div])
  have floor : ⌊|(-1 / 3 : Rat)| * 10 ^ 20⌋ = 33333333333333333333 := by
    norm_num [abs_div]
  obtain ⟨read, p, short, cs, text, written, last⟩ := render_truncates (-1 / 3) shows
  rw [floor] at read written
  refine ⟨shows, ?_, p, short, cs, ?_, by simpa using written, last⟩
  · rw [read, sign_neg (by norm_num)]
    norm_num
  · rw [text, if_pos (by norm_num)]
    rfl

end Reckon.Exact
