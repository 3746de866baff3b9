import Reckon.Decimal
import Reckon.Proofs.Binary64.Difference
import Reckon.Proofs.Binary64.Integer

/-! A decimal is rounded once on its way to a double. Small ones are a product or a quotient of two
doubles, and for those that are far out of range no power of ten is computed. -/
namespace Reckon.Binary64

open Float.Model.UnpackedFloat

theorem finite_of_value {x : Float} (h : (ofFloat x).value? = some v) (positive : 0 < v) :
    ∃ m e, ofFloat x = .finite false m e ∧ magnitude m e = v ∧ 0 < m := by
  match same : ofFloat x, h with
  | .finite true m e, h =>
    obtain rfl : -magnitude m e = v := Option.some.inj h
    exact absurd positive (not_lt.mpr (neg_nonpos.mpr (magnitude_nonneg m e)))
  | .finite false m e, h =>
    obtain rfl : magnitude m e = v := Option.some.inj h
    exact ⟨m, e, rfl, rfl, Nat.pos_of_ne_zero fun zero => positive.ne' (magnitude_eq_zero.mpr zero)⟩

section Table

def powerOfTen (k : Fin 23) : Float := getElem Float.exactlyRepresentablePowersOfTen k.val k.isLt

theorem ofFloat_powerOfTen (k : Fin 23) : ∃ m e, ofFloat (powerOfTen k) = .finite false m e ∧
    magnitude m e = 10 ^ k.val ∧ 0 < m := by
  have entries : ∀ k : Fin 23, integer? (powerOfTen k) = some (10 ^ k.val) := by decide +kernel
  have value := integer?_eq_some.mp (entries k)
  push_cast at value
  exact finite_of_value value (by positivity)

variable {n : Nat}

/-- A small natural number is a double, with all its digits unless it is zero. -/
theorem ofFloat_toUInt64 (positive : 0 < n) (small : n < 2 ^ 53) : ∃ m e,
    ofFloat n.toUInt64.toFloat = .finite false m e ∧ magnitude m e = n ∧ 2 ^ 52 ≤ m := by
  obtain ⟨m, e, notZero, rounds, unpacks⟩ := unpack_toFloat_toUInt64 positive small
  obtain ⟨m', e', rounds', value⟩ := (isDouble_of_lt small).roundsTo
  obtain ⟨rfl, rfl⟩ := rounds.unique rounds'
  refine ⟨m, e, ?_, value, rounds.full_of_one_le (by exact_mod_cast positive)⟩
  rw [ofFloat, unpacks]
  rfl

/-- A decimal of few digits and a small exponent is rounded once, from doubles. -/
theorem ofFloat_small (small : n < 2 ^ 53) (k : Fin 23) (negative : Bool) : ∃ m e,
    RoundsTo (if negative then n / 10 ^ k.val else n * 10 ^ k.val : Rat) m e ∧
      ofFloat (if negative then n.toUInt64.toFloat / powerOfTen k
        else n.toUInt64.toFloat * powerOfTen k) = make false m e := by
  rcases Nat.eq_zero_or_pos n with rfl | positive
  · have zeros : ∀ (k : Fin 23) (negative : Bool), ofFloat (if negative then
        (0).toUInt64.toFloat / powerOfTen k else (0).toUInt64.toFloat * powerOfTen k) =
          .finite false 0 0 := by decide +kernel
    refine ⟨0, -1074, ?_, zeros k negative⟩
    simpa using roundsTo_zero (v := 0) le_rfl (by positivity)
  · obtain ⟨m₁, e₁, whole, value₁, full⟩ := ofFloat_toUInt64 positive small
    obtain ⟨m₂, e₂, power, value₂, positive₂⟩ := ofFloat_powerOfTen k
    rw [← value₁, ← value₂]
    cases negative with
    | false => exact ofFloat_mul whole full power
    | true => exact ofFloat_div whole power positive₂

end Table

section Range

variable {n : Nat} {e : Int}

theorem value_up (n k : Nat) : (Decimal.mk n k).value = n * 10 ^ k := by
  rw [Decimal.value, Decimal.tenTo, zpow_natCast]

theorem value_down (n k : Nat) : (Decimal.mk n (-k)).value = n / 10 ^ k := by
  rw [Decimal.value, Decimal.tenTo, zpow_neg, zpow_natCast, div_eq_mul_inv]

/-- Far above the range there is nothing but infinity. -/
theorem overflow_le_of_large (positive : 0 < n) (large : 2048 < e) :
    overflow ≤ (Decimal.mk n e).value := by
  have digits : (1 : Rat) ≤ n := by exact_mod_cast positive
  calc overflow ≤ 10 ^ 1024 := overflow_le_ten_pow
    _ = 10 ^ (1024 : Int) := rfl
    _ ≤ 10 ^ e := zpow_le_zpow_right₀ (by norm_num) (by omega)
    _ ≤ n * 10 ^ e := le_mul_of_one_le_left (by positivity) digits

/-- Far below the range there is nothing but zero. -/
theorem le_of_small (small : e < -(2048 + n.log2)) :
    (Decimal.mk n e).value ≤ 2 ^ (-1075 : Int) := by
  have digits : (n : Rat) ≤ 2 ^ (n.log2 + 1 : Int) := by
    exact_mod_cast (Nat.lt_log2_self (n := n)).le
  have power : (10 : Rat) ^ e ≤ 2 ^ e := by
    rw [show e = -(-e).toNat by omega, zpow_neg, zpow_neg, zpow_natCast, zpow_natCast]
    exact inv_anti₀ (by positivity) (pow_le_pow_left₀ (by norm_num) (by norm_num) _)
  calc (Decimal.mk n e).value = n * 10 ^ e := rfl
    _ ≤ 2 ^ (n.log2 + 1 : Int) * 2 ^ e := mul_le_mul digits power (by positivity) (by positivity)
    _ = 2 ^ (n.log2 + 1 + e : Int) := (zpow_add₀ two_ne_zero _ _).symm
    _ ≤ 2 ^ (-1075 : Int) := zpow_le_zpow_right₀ (by norm_num) (by omega)

/-- With a power of ten in front of the point, a decimal is a product that is rounded once. -/
theorem mul_power (positive : 0 < n) (up : 0 ≤ e) : ∃ m e',
    RoundsTo (Decimal.mk n e).value m e' ∧
      mul .binary64 (.finite .positive (n <<< 53) (-53) (Nat.shiftLeft_pos_iff.mpr positive))
        (.finite .positive (10 ^ e.toNat) 0 (Nat.pow_pos (by decide))) =
          unpacked .positive m e' := by
  have power : 0 < 10 ^ e.toNat := Nat.pow_pos (by decide)
  have enough : 52 ≤ ((n <<< 53) * 10 ^ e.toNat).log2 := by
    rw [Nat.le_log2 (Nat.mul_pos (Nat.shiftLeft_pos_iff.mpr positive) power).ne', Nat.shiftLeft_eq]
    calc 2 ^ 52 ≤ n * 2 ^ 53 * 1 := by omega
      _ ≤ n * 2 ^ 53 * 10 ^ e.toNat := Nat.mul_le_mul_left _ power
  have whole : magnitude (n <<< 53) (-53) * magnitude (10 ^ e.toNat) 0 = (Decimal.mk n e).value := by
    have shifted : magnitude (n <<< 53) (-53) = magnitude n 0 := magnitude_shiftLeft n 53 0
    have value := value_up n e.toNat
    rw [Int.toNat_of_nonneg up] at value
    rw [shifted, magnitude_natural, magnitude_natural, value, Nat.cast_pow, Nat.cast_ofNat]
  exact whole ▸ mul_spec (Nat.shiftLeft_pos_iff.mpr positive) power enough (-53) 0 .positive .positive

/-- With a power of ten behind the point, a decimal is a quotient that is rounded once. -/
theorem div_power (positive : 0 < n) (down : e < 0) : ∃ m e',
    RoundsTo (Decimal.mk n e).value m e' ∧
      div .binary64 (.finite .positive n 0 positive)
        (.finite .positive (10 ^ (-e).toNat) 0 (Nat.pow_pos (by decide))) =
          unpacked .positive m e' := by
  have whole : magnitude n 0 / magnitude (10 ^ (-e).toNat) 0 = (Decimal.mk n e).value := by
    have value := value_down n (-e).toNat
    rw [Int.toNat_of_nonneg (neg_nonneg.mpr down.le), neg_neg] at value
    rw [magnitude_natural, magnitude_natural, value, Nat.cast_pow, Nat.cast_ofNat]
  exact whole ▸ div_spec positive (Nat.pow_pos (by decide)) 0 0 .positive .positive

theorem exists_roundsTo_value (positive : 0 < n) (e : Int) :
    ∃ m e', RoundsTo (Decimal.mk n e).value m e' := by
  rcases le_or_gt 0 e with up | down
  · obtain ⟨m, e', rounds, -⟩ := mul_power positive up
    exact ⟨m, e', rounds⟩
  · obtain ⟨m, e', rounds, -⟩ := div_power positive down
    exact ⟨m, e', rounds⟩

/-- The general way rounds once, too, whether it computes the power of ten or not. -/
theorem ofFloat_ofScientific (n : Nat) (e : Int) : ∃ m e',
    RoundsTo (Decimal.mk n e).value m e' ∧
      ofFloat ⟨Float.Model.ofScientific n e⟩ = make false m e' := by
  rw [Float.Model.ofScientific]
  fun_cases Float.Model.UnpackedFloat.ofScientific .binary64 n e with
  | case1 zero =>
    refine ⟨0, -1074, ?_, ofFloat_pack_zero .positive⟩
    simpa [Decimal.value, zero] using roundsTo_zero (v := 0) le_rfl (by positivity)
  | case2 nonzero large =>
    have positive := Nat.pos_of_ne_zero nonzero
    obtain ⟨m, e', rounds⟩ := exists_roundsTo_value positive e
    have infinite := overflow_le_of_large positive large
    have digits : 0 < m := rounds.pos_of_one_le (one_lt_overflow.le.trans infinite)
    refine ⟨m, e', rounds, ?_⟩
    rw [make_infinite digits (rounds.overflow_iff.mpr infinite), ofFloat_pack_infinity]
    rfl
  | case3 nonzero _ small =>
    -- No power of ten is computed here, so what the decimal rounds to comes from the bound alone.
    obtain ⟨m, e', rounds⟩ := exists_roundsTo_value (Nat.pos_of_ne_zero nonzero) e
    obtain rfl : m = 0 := rounds.eq_zero_iff.mpr (le_of_small small)
    exact ⟨0, e', rounds, ofFloat_pack_zero .positive⟩
  | case4 nonzero _ _ up =>
    obtain ⟨m, e', rounds, product⟩ := mul_power (Nat.pos_of_ne_zero nonzero) up
    exact ⟨m, e', rounds, (congrArg (fun x => ofFloat ⟨.pack x⟩) product).trans
      (ofFloat_pack rounds.grid .positive)⟩
  | case5 nonzero _ _ down =>
    obtain ⟨m, e', rounds, quotient⟩ := div_power (Nat.pos_of_ne_zero nonzero) (not_le.mp down)
    exact ⟨m, e', rounds, (congrArg (fun x => ofFloat ⟨.pack x⟩) quotient).trans
      (ofFloat_pack rounds.grid .positive)⟩

end Range

theorem roundsTo_scientific (n k : Nat) (negative : Bool) : ∃ m e,
    RoundsTo (Decimal.mk n (if negative then -k else k)).value m e ∧
      ofFloat (Float.ofScientific n negative k) = make false m e := by
  rw [Float.ofScientific]
  -- Few digits and a small exponent are taken from the table, without the general way.
  by_cases small : n < 2 ^ 53 ∧ k ≤ 22
  · rw [dif_pos small]
    have rounded := ofFloat_small small.1 ⟨k, Nat.lt_succ_of_le small.2⟩ negative
    have value : (Decimal.mk n (if negative then -k else k)).value =
        (if negative then n / 10 ^ k else n * 10 ^ k : Rat) := by
      cases negative
      · exact value_up n k
      · exact value_down n k
    exact value ▸ rounded
  · rw [dif_neg small]
    cases negative with
    | false => exact ofFloat_ofScientific n k
    | true => exact Int.negOfNat_eq ▸ ofFloat_ofScientific n (Int.negOfNat k)

def IsRounded (x : Float) (v : Rat) : Prop := ∃ m e, RoundsTo v m e ∧ ofFloat x = make false m e

theorem IsRounded.not_isNaN {x : Float} (h : IsRounded x v) : x.isNaN = false := by
  obtain ⟨m, e, -, made⟩ := h
  obtain ⟨a, place⟩ : ∃ a, (ofFloat x).place? = some a := by
    rw [made, make]
    split
    · exact ⟨_, rfl⟩
    · split <;> exact ⟨_, rfl⟩
  exact isNaN_of_place place

/-- Every decimal becomes the double that it rounds to. -/
theorem isRounded_toFloat (d : Decimal) : IsRounded d.toFloat d.value := by
  obtain ⟨n, e⟩ := d
  have exponent : (if decide (e < 0) then -(e.natAbs : Int) else e.natAbs) = e := by
    rcases lt_or_ge e 0 with down | up
    · rw [if_pos (decide_eq_true down)]
      omega
    · rw [if_neg (by simpa using up)]
      omega
  have rounded := roundsTo_scientific n e.natAbs (e < 0)
  rwa [exponent] at rounded

end Reckon.Binary64
