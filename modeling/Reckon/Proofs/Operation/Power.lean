import Reckon.Operation.Binary
import Reckon.Proofs.Exact.Reading
import Mathlib.Data.Rat.Lemmas

/-! Exact powers. Their size is bounded before they are computed, by the digits of the base and the
exponent, and a power in bounds is in lowest terms. -/
namespace Reckon

namespace Exact

theorem bitLength_le_iff : bitLength n ≤ k ↔ n < 2 ^ k := by
  unfold bitLength
  split
  · rename_i zero
    simp [zero]
  · rename_i nonzero
    exact Nat.log2_lt nonzero

theorem lt_two_pow_bitLength (n : Nat) : n < 2 ^ bitLength n := bitLength_le_iff.mp le_rfl

theorem bitLength_pos (positive : 0 < n) : 0 < bitLength n := by
  unfold bitLength
  split <;> omega

/-- A power has no more digits than its factors together. -/
theorem bitLength_pow_le (n : Nat) (positive : 0 < k) : bitLength (n ^ k) ≤ bitLength n * k := by
  rw [bitLength_le_iff, pow_mul]
  exact Nat.pow_lt_pow_left (lt_two_pow_bitLength n) positive.ne'

theorem bits_pow_le (q : Rat) (positive : 0 < k) : bits (q ^ k) ≤ bits q * k := by
  have num := bitLength_pow_le q.num.natAbs positive
  have den := bitLength_pow_le q.den positive
  rw [bits, bits, Rat.num_pow, Rat.den_pow, Int.natAbs_pow, Nat.add_mul]
  omega

theorem bits_inv {q : Rat} (nonzero : q ≠ 0) : bits q⁻¹ = bits q := by
  have num : q⁻¹.num.natAbs = q.den := by
    rw [Rat.num_inv, Int.natAbs_mul, Int.natAbs_sign_of_ne_zero (Rat.num_ne_zero.mpr nonzero)]
    simp
  rw [bits, bits, num, Rat.den_inv_of_ne_zero nonzero, Nat.add_comm]

/-- The parts of an exact number have digits, so that a bound on them bounds the exponent. -/
theorem natAbs_le_of_bits (bound : bits q * n ≤ k) : n ≤ k := by
  have := bitLength_pos q.den_pos
  have positive : 0 < bits q := by
    rw [bits]
    omega
  exact (Nat.le_mul_of_pos_left n positive).trans bound

theorem toInt64?_eq_some : toInt64? q = some n ↔ q = n ∧ isInt64 n := by
  unfold toInt64?
  rw [Option.ite_none_right_eq_some, Option.some_inj]
  constructor
  · rintro ⟨⟨den, range⟩, rfl⟩
    exact ⟨((Rat.den_eq_one_iff q).mp den).symm, range⟩
  · rintro ⟨rfl, range⟩
    exact ⟨⟨rfl, range⟩, rfl⟩

/-- Zero has no negative powers, and every other number has all powers that are not too large. -/
theorem power?_eq (q : Rat) {n : Int} (small : n.natAbs < 2 ^ 32) :
    power? q n = if q = 0 ∧ n < 0 then none else some (q ^ n) := by
  have fits : ¬n.natAbs ≥ 0x100000000 := by omega
  unfold power?
  rw [if_neg fits]
  rcases le_or_gt 0 n with up | down
  · obtain ⟨k, rfl⟩ := Int.eq_ofNat_of_zero_le up
    rw [if_pos up, if_neg fun h => h.2.not_ge up]
    simp
  · obtain ⟨k, rfl⟩ : ∃ k : Nat, n = -k := ⟨n.natAbs, by omega⟩
    rw [if_neg down.not_ge, Int.natAbs_neg, Int.natAbs_natCast, zpow_neg, zpow_natCast]
    simp only [down, and_true]

theorem bits_zpow_le {n : Int} (nonzero : n ≠ 0) (defined : ¬(q = 0 ∧ n < 0)) :
    bits (q ^ n) ≤ bits q * n.natAbs := by
  rcases lt_or_gt_of_ne nonzero with down | up
  · obtain ⟨k, rfl⟩ : ∃ k : Nat, n = -k := ⟨n.natAbs, by omega⟩
    have base : q ≠ 0 := fun zero => defined ⟨zero, down⟩
    rw [Int.natAbs_neg, Int.natAbs_natCast, zpow_neg, zpow_natCast, bits_inv (pow_ne_zero k base)]
    exact bits_pow_le q (by omega)
  · obtain ⟨k, rfl⟩ := Int.eq_ofNat_of_zero_le up.le
    rw [Int.natAbs_natCast, zpow_natCast]
    exact bits_pow_le q (by omega)

end Exact

namespace Rule

/-- An exact power is bounded before it is computed, and the bound keeps the exponent short. -/
theorem exactPow_eq {n : Int} (bound : Exact.bits p * n.natAbs ≤ maxPowerBits) (r : Rule) :
    exactPow p n r =
      some (if p = 0 ∧ n < 0 then r.divisionByZero else .ok (.exact (p ^ n))) := by
  have short : n.natAbs ≤ 0x100000 := Exact.natAbs_le_of_bits bound
  have range : Exact.isInt64 n := by
    rw [Exact.isInt64_iff, Exact.minInt64, Exact.maxInt64]
    omega
  have integer : Exact.toInt64? n = some n := Exact.toInt64?_eq_some.mpr ⟨rfl, range⟩
  rw [exactPow, integer]
  dsimp only
  rw [if_neg (not_lt.mpr bound), Exact.power?_eq p (by omega)]
  by_cases undefined : p = 0 ∧ n < 0
  · rw [if_pos undefined, if_pos undefined]
  · rw [if_neg undefined, if_neg undefined]

/-- There is no exact power unless the exponent is an integer that keeps it in bounds. -/
theorem exactPow_cases (p q : Rat) (r : Rule) :
    (∃ n : Int, q = n ∧ Exact.isInt64 n ∧ Exact.bits p * n.natAbs ≤ maxPowerBits) ∨
      exactPow p q r = none := by
  unfold exactPow
  cases same : Exact.toInt64? q with
  | none => exact .inr rfl
  | some n =>
    obtain ⟨integer, range⟩ := Exact.toInt64?_eq_some.mp same
    rcases le_or_gt (Exact.bits p * n.natAbs) maxPowerBits with bound | large
    · exact .inl ⟨n, integer, range, bound⟩
    · exact .inr (if_pos large)

/-- A power of exact numbers is exact if its size is bounded, and otherwise a power of plain
numbers. -/
theorem direct_pow (s : Settings) (p q : Rat) : Rule.pow.direct s (.exact p) (.exact q) =
    some ((exactPow p q .pow).getD (.ok (floatPow (Exact.toFloat p) (Exact.toFloat q)))) := by
  simp only [direct, exacts]
  cases exactPow p q .pow <;> rfl

theorem apply_pow (s : Settings) (p q : Rat) : Rule.pow.apply s (.exact p) (.exact q) =
    (exactPow p q .pow).getD (.ok (floatPow (Exact.toFloat p) (Exact.toFloat q))) := by
  change Rule.pow.applyLeaves s maxPromotions (.exact p) (.exact q) = _
  rw [maxPromotions, applyLeaves, direct_pow]

theorem apply_pow_bounded {n : Int} (bound : Exact.bits p * n.natAbs ≤ maxPowerBits)
    (s : Settings) : Rule.pow.apply s (.exact p) (.exact n) =
      if p = 0 ∧ n < 0 then Rule.pow.divisionByZero else .ok (.exact (p ^ n)) := by
  rw [apply_pow, exactPow_eq bound]
  rfl

theorem floatPow_ne_exact (x y : Float) (v : Rat) : floatPow x y ≠ .exact v := by
  unfold floatPow
  split <;> nofun

theorem parts_zpow_of_neg (p : Rat) {n : Int} (down : n < 0) (base : p ≠ 0) :
    (p ^ n).num = (p.num ^ n.natAbs).sign * p.den ^ n.natAbs ∧
      (p ^ n).den = p.num.natAbs ^ n.natAbs := by
  obtain ⟨k, rfl⟩ : ∃ k : Nat, n = -k := ⟨n.natAbs, by omega⟩
  rw [Int.natAbs_neg, Int.natAbs_natCast, zpow_neg, zpow_natCast,
    Rat.den_inv_of_ne_zero (pow_ne_zero k base), Rat.num_inv, Rat.num_pow, Rat.den_pow,
    Int.natAbs_pow]
  exact ⟨by push_cast; rfl, rfl⟩

theorem parts_zpow_of_nonneg (p : Rat) {n : Int} (up : 0 ≤ n) :
    (p ^ n).num = p.num ^ n.natAbs ∧ (p ^ n).den = p.den ^ n.natAbs := by
  obtain ⟨k, rfl⟩ := Int.eq_ofNat_of_zero_le up
  rw [zpow_natCast, Int.natAbs_natCast]
  exact ⟨Rat.num_pow p k, Rat.den_pow p k⟩

theorem bits_zpow_bounded {n : Int} (bound : Exact.bits p * n.natAbs ≤ maxPowerBits)
    (defined : ¬(p = 0 ∧ n < 0)) : Exact.bits (p ^ n) ≤ maxPowerBits := by
  by_cases zero : n = 0
  · rw [zero, zpow_zero]
    decide
  · exact (Exact.bits_zpow_le zero defined).trans bound

/-- A power of exact numbers is an exact number if and only if the exponent is an integer of 64 bits
that keeps it in bounds, and the base is not zero or the exponent not negative. Then it is the power
in lowest terms, and it is no larger than the bound. A negative power of zero is refused, and no
exponent in bounds is too long for 32 bits. -/
theorem pow_exact (s : Settings) (x y : Rat) :
    ((∃ v, Rule.pow.apply s (.exact x) (.exact y) = .ok (.exact v)) ↔
      ∃ n : Int, y = n ∧ Exact.isInt64 n ∧ Exact.bits x * n.natAbs ≤ 2 ^ 20 ∧ ¬(x = 0 ∧ n < 0)) ∧
    ∀ n : Int, Exact.bits x * n.natAbs ≤ 2 ^ 20 →
      n.natAbs < 2 ^ 32 ∧
      (x = 0 → n < 0 → Rule.pow.apply s (.exact x) (.exact n) = .error (.divisionByZero "pow")) ∧
      (¬(x = 0 ∧ n < 0) → Rule.pow.apply s (.exact x) (.exact n) = .ok (.exact (x ^ n)) ∧
        Nat.Coprime (x ^ n).num.natAbs (x ^ n).den ∧ 0 < (x ^ n).den ∧
        (0 ≤ n → (x ^ n).num = x.num ^ n.natAbs ∧ (x ^ n).den = x.den ^ n.natAbs) ∧
        (n < 0 → (x ^ n).num = (x.num ^ n.natAbs).sign * x.den ^ n.natAbs ∧
          (x ^ n).den = x.num.natAbs ^ n.natAbs) ∧
        Exact.bits (x ^ n) ≤ 2 ^ 20) := by
  refine ⟨⟨?_, ?_⟩, fun n bound => ⟨?_, ?_, fun defined => ⟨?_, (x ^ n).reduced, (x ^ n).den_pos,
    parts_zpow_of_nonneg x, fun down => parts_zpow_of_neg x down fun zero => defined ⟨zero, down⟩,
    bits_zpow_bounded bound defined⟩⟩⟩
  · rintro ⟨v, run⟩
    rcases exactPow_cases x y .pow with ⟨n, rfl, range, bound⟩ | none
    · refine ⟨n, rfl, range, bound, fun undefined => ?_⟩
      rw [apply_pow_bounded bound, if_pos undefined] at run
      cases run
    · rw [apply_pow, none] at run
      exact absurd (Except.ok.inj run) (floatPow_ne_exact _ _ v)
  · rintro ⟨n, rfl, -, bound, defined⟩
    exact ⟨x ^ n, by rw [apply_pow_bounded bound, if_neg defined]⟩
  · have := Exact.natAbs_le_of_bits bound
    omega
  · intro zero down
    rw [apply_pow_bounded bound, if_pos ⟨zero, down⟩]
    rfl
  · rw [apply_pow_bounded bound, if_neg defined]

/-- The cube of a fraction, and a power of zero that there is not. -/
theorem pow_exact_cube :
    (Exact.bits (-2 / 3) * (-3 : Int).natAbs ≤ 2 ^ 20 ∧ ¬((-2 / 3 : Rat) = 0 ∧ (-3 : Int) < 0) ∧
      Rule.pow.apply {} (.exact (-2 / 3)) (.exact (-3 : Int)) =
        .ok (.exact ((-2 / 3) ^ (-3 : Int)))) ∧
    Exact.bits 0 * (-1 : Int).natAbs ≤ 2 ^ 20 ∧
      Rule.pow.apply {} (.exact 0) (.exact (-1 : Int)) = .error (.divisionByZero "pow") := by
  have bound : Exact.bits (-2 / 3) * (-3 : Int).natAbs ≤ 2 ^ 20 := by decide +kernel
  have bound' : Exact.bits 0 * (-1 : Int).natAbs ≤ 2 ^ 20 := by decide +kernel
  have defined : ¬((-2 / 3 : Rat) = 0 ∧ (-3 : Int) < 0) := fun h => absurd h.1 (by norm_num)
  exact ⟨⟨bound, defined, (((pow_exact {} (-2 / 3) 0).2 (-3) bound).2.2 defined).1⟩,
    bound', ((pow_exact {} 0 0).2 (-1) bound').2.1 rfl (by decide)⟩

end Rule

end Reckon
