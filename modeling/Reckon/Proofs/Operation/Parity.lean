import Reckon.Proofs.Exact.Downgrade
import Reckon.Proofs.Operation.Power

/-! The laws of integer powers beyond the size of exact ones. The parts of the base and the exponent
are rounded to doubles there, and a double beyond 53 digits is even. -/
namespace Reckon

def Binary64.negative? : Binary64 → Option Bool
  | nan => none
  | infinite negative => some negative
  | finite negative _ _ => some negative

namespace Exact

open Binary64 (overflow)

/-- The double of an integer is infinite or an integer, and it is odd only if the integer is and has
53 digits at most. -/
theorem toFloat_integer (n : Int) :
    (2 ^ 53 ≤ n.natAbs ∧ ∃ negative, Binary64.ofFloat (toFloat n) = .infinite negative) ∨
    ∃ k : Int, Binary64.integer? (toFloat n) = some k ∧ Binary64.hasFraction (toFloat n) = false ∧
      (Odd k ↔ Odd n ∧ n.natAbs < 2 ^ 53) ∧ (k = 0 → n = 0) := by
  rcases lt_or_ge (n.natAbs : Rat) overflow with num | num
  · have abs : |(n : Rat)| = n.natAbs := by
      rw [abs_eq_div, Rat.num_intCast, Rat.den_intCast, Nat.cast_one, div_one]
    obtain ⟨m, e, rounds, finite, double⟩ := toFloat_roundsTo (q := n) num (.inl rfl)
    rw [abs] at rounds
    obtain ⟨k, natural, parity⟩ := Binary64.parity_of_roundsTo rounds
    obtain ⟨e', made, same⟩ := Binary64.make_of_le finite ((n : Rat) < 0)
    obtain ⟨integer, whole⟩ :=
      Binary64.integer?_of_magnitude (double.trans made) (same.trans natural)
    refine .inr ⟨_, integer, whole, ?_, fun zero => ?_⟩
    · rw [Int.natAbs_odd] at parity
      split <;> simpa using parity
    · by_contra nonzero
      have positive := Binary64.magnitude_pos (rounds.pos_of_one_le (by
        exact_mod_cast Int.natAbs_pos.mpr nonzero)) e
      obtain rfl : k = 0 := by split at zero <;> omega
      exact positive.ne' (natural.trans Nat.cast_zero)
  · have large : 2 ^ 53 ≤ n.natAbs := by
      have := (Binary64.two_pow_lt_overflow (k := 53) (by decide)).trans_le num
      exact_mod_cast this.le
    exact .inl ⟨large, _, toFloat_infinite (q := n) num (by
      rw [Rat.den_intCast, Nat.cast_one]
      exact Binary64.one_lt_overflow)⟩

theorem negative?_make (m : Nat) (e : Int) (negative : Bool) :
    (Binary64.make negative m e).negative? = some negative := by
  unfold Binary64.make
  split_ifs <;> rfl

/-- The double of a number other than zero has its sign, if it is a number. -/
theorem negative?_toFloat {q : Rat} (defined : q.num.natAbs < overflow ∨ q.den < overflow) :
    (Binary64.ofFloat (toFloat q)).negative? = some (decide (q < 0)) := by
  rcases lt_or_ge (q.num.natAbs : Rat) overflow with num | num <;>
    rcases lt_or_ge (q.den : Rat) overflow with den | den
  · obtain ⟨_, _, _, _, m, e, _, _, _, _, _, double⟩ := toFloat_finite num den
    rw [double, negative?_make]
  · rw [toFloat_zero num den]
    rfl
  · rw [toFloat_infinite num den]
    rfl
  · exact absurd defined (not_or.mpr ⟨num.not_gt, den.not_gt⟩)

end Exact

def Value.negative? : Value → Option Bool
  | .exact q => if q = 0 then none else some (q < 0)
  | .number x => (Binary64.ofFloat x).negative?
  | _ => none

/-- What is known of the power of plain numbers: a negative base, zero and infinity included, gives
a negative power exactly where the exponent is an odd integer, and what is no number stays so unless
the exponent is zero. -/
structure PowerSigns (pow : Float → Float → Float) : Prop where
  integer : (Binary64.ofFloat x).negative? = some true → Binary64.integer? y = some n →
    (Binary64.ofFloat (pow x y)).negative? = some (decide (Odd n))
  infinite : (Binary64.ofFloat x).negative? = some true →
    Binary64.ofFloat y = .infinite negative → (Binary64.ofFloat (pow x y)).negative? = some false
  nan : Binary64.ofFloat x = .nan → Binary64.integer? y ≠ some 0 →
    Binary64.ofFloat (pow x y) = .nan

namespace Rule

open Binary64 (overflow)

def powerBy (pow : Float → Float → Float) (p : Rat) (n : Int) : Outcome Value :=
  if Exact.bits p * n.natAbs ≤ maxPowerBits then
    if p = 0 ∧ n < 0 then Rule.pow.divisionByZero else .ok (.exact (p ^ n))
  else .ok (.number (pow (Exact.toFloat p) (Exact.toFloat n)))

theorem floatPow_integer (x : Float) (n : Int) :
    floatPow x (Exact.toFloat n) = .number (x.pow (Exact.toFloat n)) := by
  have whole : Binary64.hasFraction (Exact.toFloat n) = false := by
    rcases Exact.toFloat_integer n with ⟨-, negative, infinite⟩ | ⟨k, -, whole, -⟩
    · rw [Binary64.hasFraction, infinite]
    · exact whole
  rw [floatPow, whole, Bool.and_false]
  rfl

theorem apply_pow_integer (s : Settings) (p : Rat) (n : Int) :
    Rule.pow.apply s (.exact p) (.exact n) = powerBy Float.pow p n := by
  unfold powerBy
  split
  · rename_i bound
    exact apply_pow_bounded bound s
  · rename_i large
    rcases exactPow_cases p n .pow with ⟨k, same, -, bound⟩ | none
    · obtain rfl : n = k := by exact_mod_cast same
      exact absurd bound large
    · rw [apply_pow, none, Option.getD_none, floatPow_integer]

theorem negative?_zpow {x : Rat} (base : x < 0) (n : Int) :
    (Value.exact (x ^ n)).negative? = some (decide (Odd n)) := by
  rw [Value.negative?, if_neg (zpow_ne_zero n base.ne)]
  rcases Int.even_or_odd n with even | odd
  · have positive := even.zpow_pos base.ne
    simp [positive.not_gt, even]
  · have negative := odd.zpow_neg base
    simp [negative, odd]

/-- Beyond the bound, the sign of a negative number's power is that of the exponent, unless the
exponent is odd and too long for a double. -/
theorem negative?_pow {pow : Float → Float → Float} (signs : PowerSigns pow) {x : Rat}
    (base : x < 0) {n : Int} (nonzero : n ≠ 0) :
    (Binary64.ofFloat (pow (Exact.toFloat x) (Exact.toFloat n))).negative? =
        some (decide (Odd n)) ↔
      (x.num.natAbs < overflow ∨ x.den < overflow) ∧ (Even n ∨ n.natAbs < 2 ^ 53) := by
  by_cases defined : x.num.natAbs < overflow ∨ x.den < overflow
  · have negative : (Binary64.ofFloat (Exact.toFloat x)).negative? = some true := by
      rw [Exact.negative?_toFloat defined, decide_eq_true base]
    rw [and_iff_right defined]
    rcases Exact.toFloat_integer n with ⟨large, _, infinite⟩ | ⟨k, integer, -, parity, -⟩
    · rw [signs.infinite negative infinite, or_iff_left large.not_gt]
      simp
    · rw [signs.integer negative integer, ← Int.not_odd_iff_even]
      simp only [Option.some.injEq, decide_eq_decide]
      tauto
  · refine iff_of_false ?_ fun h => defined h.1
    obtain ⟨num, den⟩ := not_or.mp defined
    have exponent : Binary64.integer? (Exact.toFloat n) ≠ some 0 := by
      rcases Exact.toFloat_integer n with ⟨-, _, infinite⟩ | ⟨k, integer, -, -, zero⟩
      · simp [Binary64.integer?, infinite]
      · rw [integer]
        exact fun same => nonzero (zero (Option.some.inj same))
    have nan := signs.nan (Exact.toFloat_nan (not_lt.mp num) (not_lt.mp den)) exponent
    simp [Binary64.negative?, nan]

/-- An integer power of an exact number is the one of exact arithmetic up to a size, and the one of
plain numbers beyond. A negative power of zero is refused exactly up to this size. A power of a
negative number has the sign that the parity of its exponent asks for exactly if it is exact, or if
the base has a double and an odd exponent has 53 digits at most. -/
theorem pow_signs {pow : Float → Float → Float} (signs : PowerSigns pow) (s : Settings) (x : Rat)
    (n : Int) :
    Rule.pow.apply s (.exact x) (.exact n) = powerBy Float.pow x n ∧
    (x = 0 → n < 0 → (powerBy pow x n = .error (.divisionByZero "pow") ↔ -2 ^ 20 ≤ n)) ∧
    (x < 0 → ((∃ v, powerBy pow x n = .ok v ∧ v.negative? = some (decide (Odd n))) ↔
      Exact.bits x * n.natAbs ≤ 2 ^ 20 ∨
      (x.num.natAbs < overflow ∨ x.den < overflow) ∧ (Even n ∨ n.natAbs < 2 ^ 53))) := by
  refine ⟨apply_pow_integer s x n, ?_, fun base => ?_⟩
  · rintro rfl down
    have digits : Exact.bits 0 = 1 := by decide +kernel
    have bound : Exact.bits 0 * n.natAbs ≤ maxPowerBits ↔ -2 ^ 20 ≤ n := by
      rw [digits, maxPowerBits]
      omega
    unfold powerBy
    split
    · rename_i small
      rw [if_pos ⟨rfl, down⟩]
      exact iff_of_true rfl (bound.mp small)
    · rename_i large
      exact iff_of_false nofun fun small => large (bound.mpr small)
  · unfold powerBy
    split
    · rename_i bound
      rw [if_neg fun undefined => base.ne undefined.1]
      exact iff_of_true ⟨_, rfl, negative?_zpow base n⟩ (.inl bound)
    · rename_i large
      have nonzero : n ≠ 0 := by
        rintro rfl
        exact large (Nat.zero_le _)
      have beyond : ¬Exact.bits x * n.natAbs ≤ 2 ^ 20 := large
      rw [or_iff_right beyond, ← negative?_pow signs base nonzero]
      constructor
      · rintro ⟨v, run, sign⟩
        cases run
        exact sign
      · intro sign
        exact ⟨_, rfl, sign⟩

/-- A power of plain numbers with the right signs, and right for minus one. -/
def signPower (x y : Float) : Float :=
  if Binary64.ofFloat x = .nan then x
  else if (Binary64.integer? y).any (Odd ·) then -1
  else 1

theorem powerSigns_signPower : PowerSigns signPower := by
  have minus : (Binary64.ofFloat (-1)).negative? = some true := rfl
  have plus : (Binary64.ofFloat 1).negative? = some false := rfl
  constructor
  · intro x y n negative integer
    have number : Binary64.ofFloat x ≠ .nan := fun nan => by rw [nan] at negative; cases negative
    rw [signPower, if_neg number, integer, Option.any_some]
    by_cases odd : Odd n
    · simp [odd, minus]
    · simp [odd, plus]
  · intro x y s negative infinite
    have number : Binary64.ofFloat x ≠ .nan := fun nan => by rw [nan] at negative; cases negative
    have none : Binary64.integer? y = none := by rw [Binary64.integer?, infinite]
    rw [signPower, if_neg number, none]
    exact plus
  · intro x y nan _
    rw [signPower, if_pos nan, nan]

/-- The power of minus one by an odd number, beyond the bound, and a refused power of zero. -/
theorem pow_signs_minus_one : PowerSigns signPower ∧
    (¬Exact.bits (-1) * (524289 : Int).natAbs ≤ 2 ^ 20 ∧
      ∃ v, powerBy signPower (-1) 524289 = .ok v ∧ v.negative? = some true) ∧
    powerBy signPower 0 (-3) = .error (.divisionByZero "pow") := by
  have signs := powerSigns_signPower
  have large : ¬Exact.bits (-1) * (524289 : Int).natAbs ≤ 2 ^ 20 := by decide +kernel
  have odd : some true = some (decide (Odd (524289 : Int))) := by decide
  have den : ((-1 : Rat).den : Rat) < overflow := by
    rw [show (-1 : Rat).den = 1 by decide +kernel, Nat.cast_one]
    exact Binary64.one_lt_overflow
  refine ⟨signs, ⟨large, ?_⟩, ?_⟩
  · rw [odd]
    exact ((pow_signs signs {} (-1) 524289).2.2 (by norm_num)).mpr
      (.inr ⟨.inr den, .inr (by decide)⟩)
  · exact ((pow_signs signs {} 0 (-3)).2.1 rfl (by decide)).mpr (by decide)

/-- A negative power of zero that is not refused. -/
theorem pow_zero_unrefused : ∃ y, Rule.pow.apply {} (.exact 0) (.exact (-2097152 : Int)) =
    .ok (.number y) := by
  have large : ¬Exact.bits 0 * (-2097152 : Int).natAbs ≤ maxPowerBits := by decide +kernel
  have run := apply_pow_integer {} 0 (-2097152)
  rw [powerBy, if_neg large] at run
  exact ⟨_, run⟩

end Rule

end Reckon
