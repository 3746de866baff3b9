import Reckon.Proofs.Binary64.Scientific
import Reckon.Proofs.Exact.Scientific
import Reckon.Proofs.Lexer.Laid
import Reckon.Proofs.Program

/-! What number literals are worth. The digits of every number token write a numeral, so that there is
a double for it, and an exact number as well unless it is out of bounds. -/
namespace Reckon

open Numeral (Digits Mantissa Power Sign Signed Spelled)

namespace Lexer

theorem DigitRun.digits (h : DigitRun cs) : Digits cs (Nat.ofDigitChars 10 cs 0) :=
  ⟨h.ne_nil, h.isDigit, rfl⟩

theorem Significand.mantissa (h : Significand cs) : ∃ n p, Mantissa cs n p := by
  cases h with
  | whole run => exact ⟨_, _, .whole run.digits⟩
  | @fraction ws fs whole run =>
    have digits : Digits (ws ++ fs) (Nat.ofDigitChars 10 (ws ++ fs) 0) :=
      ⟨by simp [run.ne_nil], List.forall_mem_append.mpr ⟨whole, run.isDigit⟩, rfl⟩
    exact ⟨_, _, .point digits⟩

theorem Scaling.power (h : Scaling cs) : ∃ k, Power cs k := by
  cases h with
  | plain letter run => exact ⟨_, .mark letter (.intro .none run.digits)⟩
  | signed letter sign run =>
    rcases sign with rfl | rfl
    · exact ⟨_, .mark letter (.intro .plus run.digits)⟩
    · exact ⟨_, .mark letter (.intro .minus run.digits)⟩

/-- A number of the lexer writes a numeral, and never a negative one. -/
theorem NumberPattern.spelled (h : NumberPattern cs) : ∃ n, Spelled cs n ∧ n.negative = false := by
  cases h with
  | plain significand =>
    obtain ⟨n, p, mantissa⟩ := significand.mantissa
    have spelled := Spelled.intro .none mantissa .none
    rw [List.nil_append, List.append_nil] at spelled
    exact ⟨_, spelled, rfl⟩
  | scaling significand scaling =>
    obtain ⟨n, p, mantissa⟩ := significand.mantissa
    obtain ⟨k, power⟩ := scaling.power
    exact ⟨_, .intro .none mantissa power, rfl⟩

/-- A number token stands for the text that it was read from. -/
theorem Laid.numberPattern {digits : String} (h : Laid start cs ls) (member : ⟨.number digits, o⟩ ∈ ls) :
    NumberPattern digits.toList := by
  induction h with
  | done => cases member
  | space _ _ ih | comment _ _ _ ih => exact ih member
  | token munch _ ih =>
    rcases List.mem_cons.mp member with same | behind
    · obtain ⟨rfl, rfl⟩ := Located.mk.inj same
      cases munch.pattern with
      | number pattern => rwa [String.toList_ofList]
    · exact ih behind

end Lexer

namespace Binary64

theorem toLower_of_digit_or_point (h : c.isDigit ∨ c = '.') : c.toLower = c := by
  have bounds : c.toNat ≤ 57 := by
    rcases h with digit | rfl
    · have range : 48 ≤ c.toNat ∧ c.toNat ≤ 57 := by
        simpa [Char.isDigit, UInt32.le_iff_toNat_le] using digit
      exact range.2
    · decide
  refine dif_neg fun capital => ?_
  have first : 65 ≤ c.toNat := UInt32.le_iff_toNat_le.mp capital.1
  omega

/-- No name of a double starts as a number does. -/
theorem named?_eq_none (h : c.isDigit ∨ c = '.') (r : List Char) : named? (c :: r) = none := by
  have unsigned : Numeral.sign (c :: r) = (false, c :: r) := by
    unfold Numeral.sign
    split <;> simp_all
  have letters : c ≠ 'n' ∧ c ≠ 'i' := by
    constructor <;> rintro rfl <;> simp at h
  simp [named?, unsigned, toLower, toLower_of_digit_or_point h, letters]

/-- The double of a number of the lexer is that of its numeral. -/
theorem read?_of_number (h : Lexer.NumberPattern cs) (spelled : Spelled cs n)
    (positive : n.negative = false) : read? cs = some n.magnitude.toFloat := by
  obtain ⟨c, r, rfl⟩ := List.exists_cons_of_ne_nil (Lexer.Pattern.number h).ne_nil
  have starts := h.starts List.prefix_rfl
  rw [read?, named?_eq_none (Lexer.digit_or_point starts), Numeral.read?_eq_some.mpr spelled]
  simp [positive]

end Binary64

namespace Literal

variable {digits : String} {n : Numeral} {x : Float}

theorem value_plain (read : Binary64.read? digits.toList = some x) :
    (Literal.number digits).value .plain = .ok (.number x) := by
  rw [value, numberLiteral, plainNumber, read]
  rfl

/-- An exact literal is the number of its numeral, or reading runs over, or it is the same double as
a plain literal. -/
theorem value_exact_cases (spelled : Spelled digits.toList n)
    (read : Binary64.read? digits.toList = some x) :
    (Exact.isInt64 n.exponent ∧ n.scale.natAbs ≤ Exact.maxScale ∧
      (Literal.number digits).value .exact = .ok (.exact n.value)) ∨
    (Exact.isInt64 n.exponent ∧ n.scale = Exact.minInt64 ∧
      (Literal.number digits).value .exact = .error .overflow) ∨
    (¬(Exact.isInt64 n.exponent ∧
        (n.scale.natAbs ≤ Exact.maxScale ∨ n.scale = Exact.minInt64)) ∧
      (Literal.number digits).value .exact = .ok (.number x)) := by
  have bounds : Exact.read digits = (Exact.bounded n).map Exact.place := by
    rw [Exact.read, Exact.numeral_of_spelled (spelled.trim.symm ▸ spelled)]
  have double : (pure (plainNumber digits) : Outcome Value) = .ok (.number x) := by
    rw [plainNumber, read]
    rfl
  rw [value, numberLiteral]
  rcases Exact.bounded_cases n with ⟨exponent, short, run⟩ | ⟨exponent, least, run⟩ | ⟨out, run⟩ <;>
    rw [run] at bounds
  · refine .inl ⟨exponent, short, Outcome.ofDecimal_of_ok ?_⟩
    rw [bounds, ← Exact.place_eq_value]
    rfl
  · exact .inr (.inl ⟨exponent, least, Outcome.ofDecimal_of_overflow bounds⟩)
  · exact .inr (.inr ⟨out, (Outcome.ofDecimal_of_refused bounds).trans double⟩)

/-- The digits of a number token always write a numeral, which has no sign, and the literal is worth
what the numeral is. Plain it is the double that the numeral rounds to, and never a double that is no
number. Exact it is the numeral itself if and only if the exponent has 64 bits and the scale is in
bounds, and otherwise the double, unless the scale is the least integer of 64 bits: there reading runs
over, and the literal has no value. -/
theorem value_of_token (run : tokenize source = .ok ls) (member : ⟨.number digits, o⟩ ∈ ls) :
    ∃ n x, Spelled digits.toList n ∧ n.negative = false ∧
      Binary64.read? digits.toList = some x ∧ Binary64.IsRounded x n.value ∧ x.isNaN = false ∧
      (Literal.number digits).value .plain = .ok (.number x) ∧
      (∀ q, (Literal.number digits).value .exact = .ok (.exact q) ↔
        (Exact.isInt64 n.exponent ∧ n.scale.natAbs ≤ 4096) ∧ n.value = q) ∧
      (∀ y, (Literal.number digits).value .exact = .ok (.number y) ↔
        ((¬Exact.isInt64 n.exponent ∨ 4096 < n.scale.natAbs) ∧
          ¬(Exact.isInt64 n.exponent ∧ n.scale = Exact.minInt64)) ∧ x = y) ∧
      ∀ e, (Literal.number digits).value .exact = .error e ↔
        (Exact.isInt64 n.exponent ∧ n.scale = Exact.minInt64) ∧ .overflow = e := by
  have pattern := (Lexer.laid_of_scan run).numberPattern member
  obtain ⟨n, spelled, positive⟩ := pattern.spelled
  have read := Binary64.read?_of_number pattern spelled positive
  have rounded : Binary64.IsRounded n.magnitude.toFloat n.value := by
    rw [Numeral.value, if_neg (by simp [positive])]
    exact Binary64.isRounded_toFloat n.magnitude
  refine ⟨n, _, spelled, positive, read, rounded, rounded.not_isNaN, value_plain read, ?_⟩
  rcases value_exact_cases spelled read with ⟨exponent, short, made⟩ | ⟨exponent, least, made⟩ |
    ⟨out, made⟩ <;> rw [made]
  · have other : n.scale ≠ Exact.minInt64 := fun least => Exact.not_short_of_least least short
    simp [exponent, other, show n.scale.natAbs ≤ 4096 from short]
  · have long : 4096 < Exact.minInt64.natAbs := by decide
    simp [exponent, least, long]
  · have long : Exact.isInt64 n.exponent → ¬n.scale.natAbs ≤ 4096 :=
      fun exponent short => out ⟨exponent, .inl short⟩
    have other : Exact.isInt64 n.exponent → n.scale ≠ Exact.minInt64 :=
      fun exponent least => out ⟨exponent, .inr least⟩
    by_cases exponent : Exact.isInt64 n.exponent
    · simp [exponent, other exponent, not_le.mp (long exponent)]
    · simp [exponent]

/-- Fifty written with a point and an exponent, and a number that is too large to be exact. -/
theorem value_of_token_fifty :
    let ls : List Located := [⟨.number ".5e+2", 0⟩, ⟨.symbol .minus, 5⟩, ⟨.number "1e5000", 6⟩]
    tokenize ".5e+2-1e5000" = .ok ls ∧
      (Literal.number ".5e+2").value .exact = .ok (.exact 50) ∧
      ∃ x, (Literal.number "1e5000").value .exact = .ok (.number x) ∧ x.isNaN = false := by
  intro ls
  have run : tokenize ".5e+2-1e5000" = .ok ls := by with_unfolding_all rfl
  refine ⟨run, ?_, ?_⟩
  · have member : (⟨.number ".5e+2", 0⟩ : Located) ∈ ls := by simp [ls]
    obtain ⟨n, -, spelled, -, -, -, -, -, exact_, -⟩ := value_of_token run member
    obtain rfl := spelled.unique (Numeral.read?_eq_some.mp rfl : Spelled _ ⟨false, 5, 1, 2⟩)
    exact (exact_ 50).mpr ⟨by decide, by norm_num [Numeral.value, Numeral.magnitude, Numeral.scale,
      Decimal.value, Decimal.tenTo]⟩
  · have member : (⟨.number "1e5000", 6⟩ : Located) ∈ ls := by simp [ls]
    obtain ⟨n, x, spelled, -, -, -, number, -, -, double, -⟩ := value_of_token run member
    obtain rfl := spelled.unique (Numeral.read?_eq_some.mp rfl : Spelled _ ⟨false, 1, 0, 5000⟩)
    exact ⟨x, (double x).mpr ⟨by decide, rfl⟩, number⟩

/-- A number token whose exact literal has no value, since reading it runs over. -/
theorem value_of_least_scale :
    tokenize "1e-9223372036854775808" = .ok [⟨.number "1e-9223372036854775808", 0⟩] ∧
      ¬∃ v, (Literal.number "1e-9223372036854775808").value .exact = .ok v := by
  have broken : (Literal.number "1e-9223372036854775808").value .exact = .error .overflow := rfl
  refine ⟨by with_unfolding_all rfl, ?_⟩
  rw [broken]
  rintro ⟨v, ⟨⟩⟩

end Literal

end Reckon
