import Reckon.Exact
import Reckon.Proofs.Decimal.Numeral
import Mathlib.Data.Rat.Lemmas
import Mathlib.Tactic.Ring

/-! Which texts are read as exact numbers, and as which. A text is read if it writes a numeral that
is in bounds, and the bounds are tested before a power of ten is computed. The test itself fails at
the one scale whose absolute value has more than 64 bits. -/
namespace Reckon.Exact

open Numeral (Spelled)

theorem isInt64_iff : isInt64 n ↔ minInt64 ≤ n ∧ n ≤ maxInt64 := by
  simp [isInt64]

/-- A numeral passes, or its scale has no absolute value of 64 bits, or it is refused. -/
theorem bounded_cases (n : Numeral) :
    (isInt64 n.exponent ∧ n.scale.natAbs ≤ maxScale ∧ bounded n = .ok n) ∨
    (isInt64 n.exponent ∧ n.scale = minInt64 ∧ bounded n = .error .overflow) ∨
    (¬(isInt64 n.exponent ∧ (n.scale.natAbs ≤ maxScale ∨ n.scale = minInt64)) ∧
      bounded n = .error .refused) := by
  by_cases exponent : isInt64 n.exponent
  · by_cases least : n.scale = minInt64
    · refine .inr (.inl ⟨exponent, least, ?_⟩)
      rw [bounded, exponent, least]
      rfl
    · by_cases scale : isInt64 n.scale
      · have absolute : isInt64 n.scale.natAbs := by
          rw [isInt64_iff, minInt64, maxInt64] at scale ⊢
          rw [minInt64] at least
          omega
        rw [bounded, exponent, scale, absolute, if_neg (by simp), if_neg (by simp)]
        by_cases short : n.scale.natAbs ≤ maxScale
        · exact .inl ⟨rfl, short, if_neg (not_lt.mpr short)⟩
        · exact .inr (.inr ⟨fun h => h.2.elim short least, if_pos (not_le.mp short)⟩)
      · have long : ¬n.scale.natAbs ≤ maxScale := fun short => scale <| by
          rw [isInt64_iff, minInt64, maxInt64]
          rw [maxScale] at short
          omega
        refine .inr (.inr ⟨fun h => h.2.elim long least, ?_⟩)
        rw [bounded, if_pos (by simp [scale])]
        rfl
  · refine .inr (.inr ⟨fun h => exponent h.1, ?_⟩)
    rw [bounded, if_pos (by simp [exponent])]
    rfl

theorem not_short_of_least (least : n = minInt64) : ¬n.natAbs ≤ maxScale := by
  rw [least]
  decide

theorem bounded_eq_ok :
    bounded n = .ok m ↔ (isInt64 n.exponent ∧ n.scale.natAbs ≤ maxScale) ∧ n = m := by
  rcases bounded_cases n with ⟨exponent, short, run⟩ | ⟨_, least, run⟩ | ⟨out, run⟩ <;> rw [run]
  · simp [exponent, short]
  · simp [not_short_of_least least]
  · simp only [reduceCtorEq, false_iff]
    exact fun ⟨⟨exponent, short⟩, _⟩ => out ⟨exponent, .inl short⟩

theorem bounded_eq_overflow :
    bounded n = .error .overflow ↔ isInt64 n.exponent ∧ n.scale = minInt64 := by
  rcases bounded_cases n with ⟨_, short, run⟩ | ⟨exponent, least, run⟩ | ⟨out, run⟩ <;> rw [run]
  · simp only [reduceCtorEq, false_iff]
    exact fun ⟨_, least⟩ => not_short_of_least least short
  · simp [exponent, least]
  · simp only [Except.error.injEq, reduceCtorEq, false_iff]
    exact fun ⟨exponent, least⟩ => out ⟨exponent, .inr least⟩

/-- A text that writes a numeral writes only one, and it stands or falls with its bounds. -/
theorem numeral_of_spelled (spelled : Spelled (Text.trim text.toList) n) :
    numeral text = bounded n := by
  rw [numeral, Numeral.read?_eq_some.mpr spelled]

theorem numeral_cases (text : String) :
    (∃ n, Spelled (Text.trim text.toList) n) ∨ numeral text = .error .refused := by
  cases made : Numeral.read? (Text.trim text.toList) with
  | none => exact .inr (by rw [numeral, made]; rfl)
  | some n => exact .inl ⟨n, Numeral.read?_eq_some.mp made⟩

theorem numeral_eq_ok : numeral text = .ok n ↔
    Spelled (Text.trim text.toList) n ∧ isInt64 n.exponent ∧ n.scale.natAbs ≤ maxScale := by
  constructor
  · intro made
    rcases numeral_cases text with ⟨m, spelled⟩ | refused
    · obtain ⟨bounds, rfl⟩ := bounded_eq_ok.mp (numeral_of_spelled spelled ▸ made)
      exact ⟨spelled, bounds⟩
    · cases refused.symm.trans made
  · rintro ⟨spelled, bounds⟩
    rw [numeral_of_spelled spelled]
    exact bounded_eq_ok.mpr ⟨bounds, rfl⟩

theorem numeral_eq_overflow : numeral text = .error .overflow ↔
    ∃ n, Spelled (Text.trim text.toList) n ∧ isInt64 n.exponent ∧ n.scale = minInt64 := by
  constructor
  · intro made
    rcases numeral_cases text with ⟨n, spelled⟩ | refused
    · exact ⟨n, spelled, bounded_eq_overflow.mp (numeral_of_spelled spelled ▸ made)⟩
    · cases refused.symm.trans made
  · rintro ⟨n, spelled, least⟩
    rw [numeral_of_spelled spelled]
    exact bounded_eq_overflow.mpr least

/-- Moving the digits by one power of ten gives the number that the numeral stands for. -/
theorem place_eq_value (n : Numeral) : place n = n.value := by
  have magnitude : (if 0 ≤ n.scale then ((n.digits * factor n : Nat) : Rat)
      else mkRat n.digits (factor n)) = n.magnitude.value := by
    have power : ((factor n : Nat) : Rat) = 10 ^ n.scale.natAbs := Nat.cast_pow 10 _
    rw [Numeral.magnitude, Decimal.value, Decimal.tenTo]
    split
    · rename_i up
      rw [Nat.cast_mul, power, ← zpow_natCast, Int.natAbs_of_nonneg up]
    · rename_i down
      have scale : n.scale = -(n.scale.natAbs : Int) := by omega
      rw [Rat.mkRat_eq_div, power, scale, zpow_neg, zpow_natCast, Int.natAbs_neg, Int.natAbs_natCast]
      rfl
  rw [place, Numeral.value, magnitude]

theorem factor_le (bound : n.scale.natAbs ≤ maxScale) : factor n ≤ 10 ^ maxScale :=
  calc factor n = 10 ^ n.scale.natAbs := rfl
    _ ≤ 10 ^ maxScale := pow_le_pow_right₀ (by decide) bound

theorem read_eq_ok : read text = .ok q ↔ ∃ n, numeral text = .ok n ∧ n.value = q := by
  rw [read]
  cases numeral text <;> simp [Except.map, place_eq_value]

/-- An exact number is read off a numeral whose exponent and scale are in bounds. -/
theorem read_eq_ok_iff : read text = .ok q ↔
    ∃ n, Spelled (Text.trim text.toList) n ∧
      (isInt64 n.exponent ∧ n.scale.natAbs ≤ maxScale) ∧ n.value = q := by
  simp only [read_eq_ok, numeral_eq_ok, and_assoc]

theorem read_eq_error : read text = .error e ↔ numeral text = .error e := by
  rw [read]
  cases numeral text <;> simp [Except.map]

/-- A text is read if and only if it writes a numeral whose exponent has 64 bits and whose scale is in
bounds, and then as the number of this numeral, by one power of ten that is in bounds too. Reading
runs over the integers of 64 bits if and only if the scale is the least of them. -/
theorem read_spec (text : String) :
    (∀ q, read text = .ok q ↔ ∃ n, Spelled (Text.trim text.toList) n ∧
      isInt64 n.exponent ∧ n.scale.natAbs ≤ 4096 ∧ n.value = q) ∧
    (∀ q, read text = .ok q → ∃ n, numeral text = .ok n ∧ place n = q ∧
      factor n ≤ 10 ^ maxScale) ∧
    (read text = .error .overflow ↔ ∃ n, Spelled (Text.trim text.toList) n ∧
      isInt64 n.exponent ∧ n.scale = minInt64) := by
  refine ⟨fun q => ?_, fun q made => ?_, read_eq_error.trans numeral_eq_overflow⟩
  · simpa only [maxScale, and_assoc] using read_eq_ok_iff
  · obtain ⟨n, accepted, rfl⟩ := read_eq_ok.mp made
    obtain ⟨-, -, short⟩ := numeral_eq_ok.mp accepted
    exact ⟨n, accepted, place_eq_value n, factor_le short⟩

/-- No number is read off a text whose scale is the least integer of 64 bits, but the text is not
refused either. -/
theorem read_least_scale :
    Spelled (Text.trim "1e-9223372036854775808".toList) ⟨false, 1, 0, minInt64⟩ ∧
      isInt64 minInt64 ∧ read "1e-9223372036854775808" = .error .overflow :=
  ⟨Numeral.read?_eq_some.mp rfl, rfl, rfl⟩

end Reckon.Exact
