import Reckon.Proofs.Binary64.Integer
import Reckon.Proofs.Exact.Double
import Reckon.Proofs.Exact.Scientific
import Reckon.Proofs.Exact.Truncation

/-! What a downgrade to a double keeps of an exact number, and when a double is found again. -/
namespace Reckon.Exact

open Binary64 (IsDouble OnGrid RoundsTo make overflow magnitude maxExponent)

def RoundsOnce (q : Rat) : Prop := q.den = 1 ∨ IsDouble q.num.natAbs ∧ IsDouble q.den

/-- The double of a number is found by rounding its parts to doubles in range and their quotient
again. -/
def QuotientRounds (q w : Rat) : Prop :=
  ∃ m₁ e₁ m₂ e₂ m e, RoundsTo q.num.natAbs m₁ e₁ ∧ e₁ ≤ maxExponent ∧
    RoundsTo q.den m₂ e₂ ∧ e₂ ≤ maxExponent ∧
    RoundsTo (magnitude m₁ e₁ / magnitude m₂ e₂) m e ∧ magnitude m e = w

section

variable {q : Rat}

/-- A decimal with 53 binary digits and at most 22 places is rounded once. -/
theorem roundsOnce_of_places {n k : Nat} (digits : n < 2 ^ 53) (places : k ≤ 22)
    (value : |q| = n / 10 ^ k) : RoundsOnce q := by
  have cross : q.num.natAbs * 10 ^ k = n * q.den := by
    rw [abs_eq_div, div_eq_div_iff (by exact_mod_cast q.den_nz) (by positivity)] at value
    exact_mod_cast value
  have divides : q.den ∣ 10 ^ k :=
    q.reduced.symm.dvd_of_dvd_mul_left (cross ▸ Nat.dvd_mul_left _ _)
  obtain ⟨j, power⟩ := divides
  have positive : 0 < j := Nat.pos_of_ne_zero fun zero => by simp [zero] at power
  have scaled : q.num.natAbs * j = n := by
    rw [power, ← mul_assoc, mul_right_comm] at cross
    exact Nat.eq_of_mul_eq_mul_right q.den_pos cross
  have less : q.num.natAbs ≤ n := scaled ▸ Nat.le_mul_of_pos_right _ positive
  exact .inr ⟨Binary64.isDouble_of_lt (less.trans_lt digits),
    Binary64.isDouble_of_dvd_ten_pow ⟨j, power⟩ places⟩

/-- A natural number is moved by a part of it that its 53 digits bound. -/
theorem relative_error_nat {n : Nat} (rounds : RoundsTo n m e) :
    |magnitude m e - n| ≤ magnitude m e / 2 ^ 53 := by
  rcases Nat.eq_zero_or_pos n with rfl | positive
  · have zero : m = 0 := rounds.eq_zero_iff.mpr (by rw [Nat.cast_zero]; positivity)
    simp [zero, Binary64.magnitude_zero]
  · exact rounds.relative_error (rounds.full_of_one_le (by exact_mod_cast positive))

/-- Parts that are moved a little move their quotient a little. -/
theorem quotient_error {a A d D : Rat} (num : 0 ≤ A) (den : 0 < d) (den' : 0 < D)
    (numerator : |A - a| ≤ A / 2 ^ 53) (denominator : |D - d| ≤ D / 2 ^ 53) :
    A / D * (1 - 1 / 2 ^ 53) ≤ a / d * (1 + 1 / 2 ^ 53) ∧
      a / d * (1 - 1 / 2 ^ 53) ≤ A / D * (1 + 1 / 2 ^ 53) := by
  rw [abs_le] at numerator denominator
  simp only [div_mul_eq_mul_div]
  rw [div_le_div_iff₀ den' den, div_le_div_iff₀ den den']
  constructor
  · calc A * (1 - 1 / 2 ^ 53) * d ≤ a * (D * (1 + 1 / 2 ^ 53)) :=
          mul_le_mul (by linarith) (by linarith) den.le (by linarith)
      _ = a * (1 + 1 / 2 ^ 53) * D := by ring
  · calc a * (1 - 1 / 2 ^ 53) * D = a * (D * (1 - 1 / 2 ^ 53)) := by ring
      _ ≤ A * (1 + 1 / 2 ^ 53) * d :=
          mul_le_mul (by linarith) (by linarith) (by linarith) (by linarith)

/-- The double of a fraction whose parts do not overflow is off by two units of the last place, and
near zero by half the least double. -/
theorem rounded_quotient_error (num : RoundsTo q.num.natAbs m₁ e₁) (den : RoundsTo q.den m₂ e₂)
    (rounds : RoundsTo (magnitude m₁ e₁ / magnitude m₂ e₂) m e) :
    |magnitude m e - (|q|)| ≤ |q| / 2 ^ 51 + 2 ^ (-1075 : Int) := by
  have positive₂ := Binary64.magnitude_pos (den.pos_of_one_le (one_le_den q)) e₂
  have nonneg := abs_nonneg q
  rw [abs_eq_div q] at nonneg ⊢
  obtain ⟨above, below⟩ := quotient_error (Binary64.magnitude_nonneg m₁ e₁)
    (by exact_mod_cast q.pos) positive₂ (relative_error_nat num) (relative_error_nat den)
  have tiny : (0 : Rat) < 2 ^ (-1075 : Int) := by positivity
  generalize (q.num.natAbs : Rat) / q.den = w at *
  generalize magnitude m₁ e₁ / magnitude m₂ e₂ = v at *
  rw [abs_le]
  rcases rounds.grid.full with full | least
  · have last := rounds.relative_error full
    rw [abs_le] at last
    constructor <;> linarith
  · have last := rounds.error
    have half : (2 : Rat) ^ e / 2 = 2 ^ (-1075 : Int) := by
      rw [least, Binary64.half_least]
    rw [abs_le, half] at last
    constructor <;> linarith

theorem num_lt_overflow_of_abs_lt (integral : q.den = 1) (small : |q| < overflow) :
    q.num.natAbs < overflow := by
  rwa [abs_eq_div, integral, Nat.cast_one, div_one] at small

/-- The double of a fraction that is rounded once is the nearest one. -/
theorem toFloat_roundsTo (num : q.num.natAbs < overflow) (once : RoundsOnce q) :
    ∃ m e, RoundsTo |q| m e ∧ e ≤ maxExponent ∧
      Binary64.ofFloat (toFloat q) = make (q < 0) m e := by
  have den : q.den < overflow := by
    rcases once with integral | ⟨-, den⟩
    · rw [integral, Nat.cast_one]
      exact Binary64.one_lt_overflow
    · exact den.lt_overflow
  obtain ⟨m₁, e₁, m₂, e₂, m, e, rounds₁, rounds₂, rounds, finite, -, double⟩ :=
    toFloat_finite num den
  refine ⟨m, e, ?_, finite, double⟩
  rcases once with integral | ⟨num, den⟩
  · have one := Binary64.onGrid_one.roundsTo
    rw [integral, Nat.cast_one] at rounds₂
    rw [Binary64.magnitude_one] at one
    obtain ⟨rfl, rfl⟩ := rounds₂.unique one
    rw [Binary64.magnitude_one, div_one] at rounds
    obtain ⟨rfl, rfl⟩ := rounds.unique rounds₁.grid.roundsTo
    rwa [abs_eq_div, integral, Nat.cast_one, div_one]
  · obtain ⟨_, _, exact₁, value₁⟩ := num.roundsTo
    obtain ⟨_, _, exact₂, value₂⟩ := den.roundsTo
    obtain ⟨rfl, rfl⟩ := rounds₁.unique exact₁
    obtain ⟨rfl, rfl⟩ := rounds₂.unique exact₂
    rwa [value₁, value₂, ← abs_eq_div] at rounds

/-- With the right sign, a number is as far off as its magnitude. -/
theorem abs_signed_sub (q r : Rat) : |(if q < 0 then -r else r) - q| = |r - (|q|)| := by
  split
  · rename_i negative
    rw [abs_of_neg negative, ← abs_neg]
    congr 1
    ring
  · rename_i nonneg
    rw [abs_of_nonneg (not_lt.mp nonneg)]

/-- No finite double is nearer than the one to which the magnitude rounds. -/
theorem nearest_of_roundsTo (rounds : RoundsTo |q| m e)
    (other : (Binary64.ofFloat y).value? = some w) :
    |(if q < 0 then -magnitude m e else magnitude m e) - q| ≤ |w - q| := by
  obtain ⟨negative, m', e', grid, -, value⟩ := Binary64.of_value other
  have magnitude' : |w| = magnitude m' e' := by
    have nonneg := Binary64.magnitude_nonneg m' e'
    rw [value]
    split
    · rw [abs_neg, abs_of_nonneg nonneg]
    · rw [abs_of_nonneg nonneg]
  rw [abs_signed_sub]
  calc |magnitude m e - (|q|)| ≤ |magnitude m' e' - (|q|)| := rounds.nearest grid
    _ = |(|w|) - (|q|)| := by rw [magnitude']
    _ ≤ |w - q| := abs_abs_sub_abs_le w q

/-- The double of a fraction whose parts do not overflow is finite and not far off. -/
theorem toFloat_value (num : q.num.natAbs < overflow) (den : q.den < overflow) :
    ∃ v, (Binary64.ofFloat (toFloat q)).value? = some v ∧
      |v - q| ≤ |q| / 2 ^ 51 + 2 ^ (-1075 : Int) := by
  obtain ⟨_, _, _, _, m, e, rounds₁, rounds₂, rounds, finite, -, double⟩ := toFloat_finite num den
  refine ⟨_, (congrArg Binary64.value? double).trans (Binary64.value_make finite _), ?_⟩
  simp only [decide_eq_true_eq]
  rw [abs_signed_sub]
  exact rounded_quotient_error rounds₁ rounds₂ rounds

theorem toFloat_eq_nan_iff :
    Binary64.ofFloat (toFloat q) = .nan ↔ overflow ≤ q.num.natAbs ∧ overflow ≤ q.den := by
  rcases lt_or_ge (q.num.natAbs : Rat) overflow with num | num <;>
    rcases lt_or_ge (q.den : Rat) overflow with den | den
  · obtain ⟨v, value, -⟩ := toFloat_value num den
    exact iff_of_false (fun nan => by rw [nan] at value; cases value) fun h => num.not_ge h.1
  · exact iff_of_false (by simp [toFloat_zero num den]) fun h => num.not_ge h.1
  · exact iff_of_false (by simp [toFloat_infinite num den]) fun h => den.not_ge h.2
  · exact iff_of_true (toFloat_nan num den) ⟨num, den⟩

theorem toFloat_finite_iff :
    (∃ v, (Binary64.ofFloat (toFloat q)).value? = some v) ↔ q.num.natAbs < overflow := by
  rcases lt_or_ge (q.num.natAbs : Rat) overflow with num | num <;>
    rcases lt_or_ge (q.den : Rat) overflow with den | den
  · obtain ⟨v, value, -⟩ := toFloat_value num den
    exact iff_of_true ⟨v, value⟩ num
  · have value : (Binary64.ofFloat (toFloat q)).value? = some 0 := by
      simp [toFloat_zero num den, Binary64.value?, Binary64.magnitude_zero]
    exact iff_of_true ⟨0, value⟩ num
  · exact iff_of_false (by simp [toFloat_infinite num den, Binary64.value?]) num.not_gt
  · exact iff_of_false (by simp [toFloat_nan num den, Binary64.value?]) num.not_gt

end

/-- A finite double is promoted to the number of its shortest decimal. -/
theorem ofFloat?_of_value (finite : (Binary64.ofFloat x).value? = some v) :
    ∃ q, ofFloat? x = some q := by
  match same : Binary64.ofFloat x, finite with
  | .finite negative m e, _ => exact ⟨_, by rw [ofFloat?, same]⟩

/-- The decimal of a finite double rounds to its magnitude. -/
theorem decimal_roundsTo (finite : Binary64.ofFloat x = .finite negative m e) :
    ∃ e', e' ≤ maxExponent ∧ magnitude m e' = magnitude m e ∧
      RoundsTo (Binary64.decimal m e).value m e' := by
  obtain ⟨e', grid, small, -, same, -⟩ := Binary64.of_finite finite
  refine ⟨e', small, same, ?_⟩
  unfold Binary64.decimal
  split
  · rename_i zero
    subst zero
    have value : (⟨0, 0⟩ : Decimal).value = magnitude 0 e' := by
      simp [Decimal.value, Binary64.magnitude_zero]
    rw [value]
    exact grid.roundsTo
  · rename_i nonzero
    have positive := Nat.pos_of_ne_zero nonzero
    obtain ⟨grid', -⟩ := Binary64.grid_of_finite finite positive
    obtain ⟨-, rfl⟩ := grid.eq_of_magnitude grid' same
    exact Decimal.shortest_roundsTo grid positive

/-- The sign of a double is that of the number to which it is promoted, unless both are zero. -/
theorem signed_value {r s : Rat} (zero : r = 0 → s = 0) (nonneg : 0 ≤ r) (negative : Bool) :
    (if (if negative then -r else r) < 0 then -s else s) = if negative then -s else s := by
  rcases nonneg.eq_or_lt with same | positive
  · simp [zero same.symm]
  · cases negative <;> simp [positive, positive.not_gt]

/-- A finite double has the sign of the number that it is promoted to, and its magnitude is what
that number rounds to. -/
theorem ofFloat?_spec (promoted : ofFloat? x = some q)
    (finite : (Binary64.ofFloat x).value? = some v) :
    v = (if q < 0 then -|v| else |v|) ∧ (v = 0 → q = 0) ∧
      ∃ m e, e ≤ maxExponent ∧ RoundsTo |q| m e ∧ magnitude m e = |v| := by
  rw [ofFloat?] at promoted
  split at promoted
  · rename_i negative m e same
    obtain ⟨e', small, magnitude', rounds⟩ := decimal_roundsTo same
    have value : v = if negative then -magnitude m e' else magnitude m e' := by
      rw [same] at finite
      rw [magnitude']
      exact (Option.some.inj finite).symm
    have decimal (zero : magnitude m e' = 0) : (Binary64.decimal m e).value = 0 := by
      rw [Binary64.decimal, if_pos (Binary64.magnitude_eq_zero.mp zero), Decimal.value,
        Nat.cast_zero, zero_mul]
    generalize (Binary64.decimal m e).value = r at promoted rounds decimal
    have nonneg : 0 ≤ r := (Binary64.low_nonneg m e').trans rounds.low_le
    have nonneg' := Binary64.magnitude_nonneg m e'
    have zero (none : r = 0) : magnitude m e' = 0 := by
      rw [rounds.eq_zero_iff.mpr (by rw [none]; positivity), Binary64.magnitude_zero]
    obtain rfl : (if negative then -r else r) = q := Option.some.inj promoted
    have abs : |if negative then -r else r| = r := by
      cases negative <;> simp [abs_of_nonneg nonneg]
    have abs' : |v| = magnitude m e' := by
      rw [value]
      cases negative <;> simp [abs_of_nonneg nonneg']
    refine ⟨?_, fun none => ?_, m, e', small, abs.symm ▸ rounds, abs'.symm⟩
    · rw [abs', signed_value zero nonneg, value]
    · rw [decimal (by rw [← abs', none, abs_zero])]
      simp
  · cases promoted

/-- Rounding in two steps is all that happens to a number. -/
theorem value_toFloat_iff (zero : w = 0 → q = 0) :
    (Binary64.ofFloat (toFloat q)).value? = some (if q < 0 then -w else w) ↔
      QuotientRounds q w := by
  constructor
  · intro value
    have num := toFloat_finite_iff.mp ⟨_, value⟩
    rcases lt_or_ge (q.den : Rat) overflow with den | den
    · obtain ⟨m₁, e₁, m₂, e₂, m, e, rounds₁, rounds₂, rounds, finite, -, double⟩ :=
        toFloat_finite num den
      rw [double, Binary64.value_make finite] at value
      refine ⟨m₁, e₁, m₂, e₂, m, e, rounds₁, rounds₁.finite_iff.mpr num, rounds₂,
        rounds₂.finite_iff.mpr den, rounds, ?_⟩
      by_cases negative : q < 0 <;> simpa [negative] using value
    · -- The double is a zero, and then the denominator is one.
      rw [toFloat_zero num den] at value
      have none : w = 0 := by
        by_cases negative : q < 0 <;>
          simpa [negative, Binary64.value?, Binary64.magnitude_zero, eq_comm] using value
      rw [zero none, Rat.den_zero, Nat.cast_one] at den
      exact absurd den Binary64.one_lt_overflow.not_ge
  · rintro ⟨m₁, e₁, m₂, e₂, m, e, rounds₁, small₁, rounds₂, small₂, rounds, rfl⟩
    obtain ⟨_, _, _, _, _, _, rounds₁', rounds₂', rounds', finite, -, double⟩ :=
      toFloat_finite (rounds₁.finite_iff.mp small₁) (rounds₂.finite_iff.mp small₂)
    obtain ⟨rfl, rfl⟩ := rounds₁.unique rounds₁'
    obtain ⟨rfl, rfl⟩ := rounds₂.unique rounds₂'
    obtain ⟨rfl, rfl⟩ := rounds.unique rounds'
    rw [double, Binary64.value_make finite]
    simp

theorem toFloat_beq_iff (promoted : ofFloat? x = some q)
    (finite : (Binary64.ofFloat x).value? = some v) :
    (toFloat q == x) = true ↔ QuotientRounds q |v| := by
  obtain ⟨sign, zero, -⟩ := ofFloat?_spec promoted finite
  have same := value_toFloat_iff fun none => zero (abs_eq_zero.mp none)
  rw [Binary64.beq_iff_value finite, ← same, ← sign]

/-- A double is found again from its shortest decimal if that is rounded once. -/
theorem toFloat_ofFloat (promoted : ofFloat? x = some q)
    (finite : (Binary64.ofFloat x).value? = some v) (once : RoundsOnce q) :
    (toFloat q == x) = true := by
  obtain ⟨sign, -, m, e, small, rounds, magnitude'⟩ := ofFloat?_spec promoted finite
  have num : q.num.natAbs < overflow := once.elim
    (fun integral => num_lt_overflow_of_abs_lt integral (rounds.finite_iff.mp small))
    fun parts => parts.1.lt_overflow
  obtain ⟨m₁, e₁, rounds₁, small₁, double⟩ := toFloat_roundsTo num once
  obtain ⟨rfl, rfl⟩ := rounds₁.unique rounds
  rw [Binary64.beq_iff_value finite, double, Binary64.value_make small₁, magnitude']
  simpa using sign.symm

/-- The double of an exact number is no number exactly if both its parts are beyond the doubles, and
finite exactly if its numerator is not. With both parts in range it is off by two units of the last
place at most, and it is the nearest double if the number is rounded once. A finite double is read
back from its scientific notation as the number that it is promoted to. The double of that number is
the same exactly if its parts, rounded to doubles in range, have a quotient that rounds to it, and
so if the number is rounded once. -/
theorem toFloat_faithful (q : Rat) (x : Float) :
    (Binary64.ofFloat (toFloat q) = .nan ↔ overflow ≤ q.num.natAbs ∧ overflow ≤ q.den) ∧
    ((∃ v, (Binary64.ofFloat (toFloat q)).value? = some v) ↔ q.num.natAbs < overflow) ∧
    (q.num.natAbs < overflow → q.den < overflow →
      ∃ v, (Binary64.ofFloat (toFloat q)).value? = some v ∧
        |v - q| ≤ |q| / 2 ^ 51 + 2 ^ (-1075 : Int)) ∧
    (q.num.natAbs < overflow → RoundsOnce q →
      ∃ v, (Binary64.ofFloat (toFloat q)).value? = some v ∧
        ∀ y w, (Binary64.ofFloat y).value? = some w → |v - q| ≤ |w - q|) ∧
    ∀ v, (Binary64.ofFloat x).value? = some v →
      ∃ p, read (Binary64.renderScientific x) = .ok p ∧ ofFloat? x = some p ∧
        (toFloat p == x ↔ QuotientRounds p |v|) ∧ (RoundsOnce p → toFloat p == x) := by
  refine ⟨toFloat_eq_nan_iff, toFloat_finite_iff, toFloat_value, fun num once => ?_,
    fun v finite => ?_⟩
  · obtain ⟨m, e, rounds, finite, double⟩ := toFloat_roundsTo num once
    refine ⟨_, (congrArg Binary64.value? double).trans (Binary64.value_make finite _),
      fun y w other => ?_⟩
    simpa using nearest_of_roundsTo rounds other
  · obtain ⟨p, promoted⟩ := ofFloat?_of_value finite
    exact ⟨p, read_renderScientific_of_promoted promoted, promoted,
      toFloat_beq_iff promoted finite, toFloat_ofFloat promoted finite⟩

/-- A tenth is promoted from the double nearest to it and found again. -/
theorem toFloat_faithful_tenth :
    RoundsOnce (1 / 10) ∧
      (∃ v, (Binary64.ofFloat (toFloat (1 / 10))).value? = some v ∧
        ∀ y w, (Binary64.ofFloat y).value? = some w → |v - 1 / 10| ≤ |w - 1 / 10|) ∧
      toFloat (1 / 10) == Float.ofBits 0x3FB999999999999A := by
  have once : RoundsOnce (1 / 10) :=
    roundsOnce_of_places (n := 1) (k := 1) (by decide) (by decide) (by norm_num [abs_of_pos])
  have small : ((1 / 10 : Rat).num.natAbs : Rat) < overflow := by
    rw [show (1 / 10 : Rat).num.natAbs = 1 by decide +kernel, Nat.cast_one]
    exact Binary64.one_lt_overflow
  have finite : (Binary64.ofFloat (Float.ofBits 0x3FB999999999999A)).value? =
      some (Binary64.magnitude 0x1999999999999A (-56)) := rfl
  have promoted : ofFloat? (Float.ofBits 0x3FB999999999999A) = some (1 / 10) := by decide +kernel
  obtain ⟨-, -, -, nearest, back⟩ :=
    toFloat_faithful (1 / 10) (Float.ofBits 0x3FB999999999999A)
  obtain ⟨p, -, same, -, found⟩ := back _ finite
  obtain rfl : 1 / 10 = p := Option.some.inj (promoted.symm.trans same)
  exact ⟨once, nearest small once, found once⟩

theorem succ_div_self {n : Nat} (positive : 0 < n) :
    ((n + 1) / n : Rat).num = (n + 1 : Nat) ∧ ((n + 1) / n : Rat).den = n := by
  have quotient : ((n + 1) / n : Rat) = ((n + 1 : Nat) : Int) / ((n : Int) : Rat) := by
    push_cast
    rfl
  have coprime : Nat.Coprime ((n + 1 : Nat) : Int).natAbs (n : Int).natAbs :=
    (Nat.coprime_self_add_right.mpr (Nat.coprime_one_right n)).symm
  have positive' : 0 < (n : Int) := by exact_mod_cast positive
  rw [quotient]
  exact ⟨Rat.num_div_eq_of_coprime positive' coprime,
    by exact_mod_cast Rat.den_div_eq_of_coprime positive' coprime⟩

/-- The successor of a number out of range by this number has no double. -/
theorem toFloat_succ_div_self {n : Nat} (large : overflow ≤ n) :
    |((n + 1) / n : Rat)| ≤ 2 ∧ Binary64.ofFloat (toFloat ((n + 1) / n)) = .nan := by
  have one : (1 : Rat) < n := Binary64.one_lt_overflow.trans_le large
  have positive : 0 < n := by exact_mod_cast one_pos.trans one
  obtain ⟨num, den⟩ := succ_div_self positive
  constructor
  · rw [abs_of_pos (by positivity), div_le_iff₀ (one_pos.trans one)]
    linarith
  · refine toFloat_nan ?_ (by rwa [den])
    rw [num, Int.natAbs_natCast, Nat.cast_succ]
    linarith

/-- A number near one whose double is no number. -/
theorem toFloat_lost : |((10 ^ 1024 + 1) / 10 ^ 1024 : Rat)| ≤ 2 ∧
    Binary64.ofFloat (toFloat ((10 ^ 1024 + 1) / 10 ^ 1024)) = .nan := by
  have cast : ((10 ^ 1024 : Nat) : Rat) = 10 ^ 1024 := by rw [Nat.cast_pow, Nat.cast_ofNat]
  have lost := toFloat_succ_div_self (cast ▸ Binary64.overflow_le_ten_pow)
  rwa [cast] at lost

end Reckon.Exact
