import Reckon.Proofs.Binary64.Arithmetic

/-! What a fraction is as a double. Its numerator and its denominator are rounded first, and either
of them can leave the range of the doubles where the fraction does not. -/
namespace Reckon.Exact

open Binary64 (RoundsTo make overflow magnitude maxExponent)

theorem two_pow_le_of_le_log2 {n : Nat} (nonzero : n ≠ 0) (digits : k ≤ n.log2) :
    (2 : Rat) ^ k ≤ n := by
  exact_mod_cast (Nat.le_log2 nonzero).mp digits

theorem overflow_le_of_le_log2 {n : Nat} (digits : 1024 ≤ n.log2) : overflow ≤ n := by
  have nonzero : n ≠ 0 := fun zero => by simp [zero] at digits
  exact (sub_le_self _ (by positivity)).trans (two_pow_le_of_le_log2 nonzero digits)

/-- A natural number is rounded once, also beyond the range of the machine's own conversion. -/
theorem ofFloat_natToFloat {n : Nat} (rounds : RoundsTo n m e) :
    Binary64.ofFloat (natToFloat n) = make false m e := by
  rw [natToFloat]
  split
  · exact Binary64.ofFloat_ofNat rounds
  · rename_i digits
    have bound := overflow_le_of_le_log2 (not_lt.mp digits)
    have positive : 0 < m := rounds.pos_of_one_le (Binary64.one_lt_overflow.le.trans bound)
    rw [Binary64.make_infinite positive (rounds.overflow_iff.mpr bound)]
    rfl

theorem ofFloat_intToFloat {n : Int} (rounds : RoundsTo n.natAbs m e) :
    Binary64.ofFloat (intToFloat n) = make (n < 0) m e := by
  rw [intToFloat]
  split
  · rename_i negative
    rw [Binary64.ofFloat_neg (ofFloat_natToFloat rounds)]
    simp [negative]
  · rename_i positive
    rw [ofFloat_natToFloat rounds]
    simp [positive]

section

variable {q : Rat}

theorem one_le_den (q : Rat) : (1 : Rat) ≤ q.den := by exact_mod_cast q.pos

theorem one_le_num (nonzero : q ≠ 0) : (1 : Rat) ≤ q.num.natAbs := by
  exact_mod_cast Int.natAbs_pos.mpr (Rat.num_ne_zero.mpr nonzero)

/-- A numerator in range is finite. -/
theorem numerator_finite (num : q.num.natAbs < overflow) : ∃ m e e', RoundsTo q.num.natAbs m e ∧
    e ≤ maxExponent ∧ magnitude m e' = magnitude m e ∧
    Binary64.ofFloat (intToFloat q.num) = .finite (q < 0) m e' := by
  obtain ⟨m, e, rounds⟩ := Binary64.exists_roundsTo q.num.natAbs
  have small := rounds.finite_iff.mpr num
  obtain ⟨e', made, same⟩ := Binary64.make_of_le small (q < 0)
  refine ⟨m, e, e', rounds, small, same, ?_⟩
  rw [ofFloat_intToFloat rounds, ← made]
  simp

theorem numerator_infinite (num : overflow ≤ q.num.natAbs) :
    Binary64.ofFloat (intToFloat q.num) = .infinite (q < 0) := by
  obtain ⟨m, e, rounds⟩ := Binary64.exists_roundsTo q.num.natAbs
  have positive : 0 < m := rounds.pos_of_one_le (Binary64.one_lt_overflow.le.trans num)
  rw [ofFloat_intToFloat rounds, Binary64.make_infinite positive (rounds.overflow_iff.mpr num)]
  simp

theorem denominator_finite (den : q.den < overflow) : ∃ m e, RoundsTo q.den m e ∧ 0 < m ∧
    e ≤ maxExponent ∧ Binary64.ofFloat (natToFloat q.den) = .finite false m e := by
  obtain ⟨m, e, rounds⟩ := Binary64.exists_roundsTo q.den
  have small := rounds.finite_iff.mpr den
  have positive : 0 < m := rounds.pos_of_one_le (one_le_den q)
  exact ⟨m, e, rounds, positive, small,
    (ofFloat_natToFloat rounds).trans (Binary64.make_finite positive small false)⟩

theorem denominator_infinite (den : overflow ≤ q.den) :
    Binary64.ofFloat (natToFloat q.den) = .infinite false := by
  obtain ⟨m, e, rounds⟩ := Binary64.exists_roundsTo q.den
  have positive : 0 < m := rounds.pos_of_one_le (one_le_den q)
  rw [ofFloat_natToFloat rounds, Binary64.make_infinite positive (rounds.overflow_iff.mpr den)]

/-- The double of a fraction whose parts do not overflow is the rounded quotient of the rounded
parts, and it does not overflow or vanish. -/
theorem toFloat_finite (num : q.num.natAbs < overflow) (den : q.den < overflow) :
    ∃ m₁ e₁ m₂ e₂ m e, RoundsTo q.num.natAbs m₁ e₁ ∧ RoundsTo q.den m₂ e₂ ∧
      RoundsTo (magnitude m₁ e₁ / magnitude m₂ e₂) m e ∧ e ≤ maxExponent ∧ (q ≠ 0 → 0 < m) ∧
      Binary64.ofFloat (toFloat q) = make (q < 0) m e := by
  obtain ⟨m₁, e₁, e₁', rounds₁, small₁, same₁, numerator⟩ := numerator_finite num
  obtain ⟨m₂, e₂, rounds₂, positive₂, small₂, denominator⟩ := denominator_finite den
  obtain ⟨m, e, rounds, quotient⟩ := Binary64.ofFloat_div numerator denominator positive₂
  rw [same₁] at rounds
  have atLeast₂ := rounds₂.one_le (one_le_den q)
  have below₂ := rounds₂.magnitude_lt_overflow den
  refine ⟨m₁, e₁, m₂, e₂, m, e, rounds₁, rounds₂, rounds, ?_, ?_, by simpa [toFloat] using quotient⟩
  · have shrinks : magnitude m₁ e₁ / magnitude m₂ e₂ ≤ magnitude m₁ e₁ :=
      div_le_self (Binary64.magnitude_nonneg m₁ e₁) atLeast₂
    exact rounds.finite_iff.mpr (shrinks.trans_lt (rounds₁.magnitude_lt_overflow num))
  · intro nonzero
    have atLeast₁ := rounds₁.one_le (one_le_num nonzero)
    have bound : 1 / overflow < magnitude m₁ e₁ / magnitude m₂ e₂ :=
      div_lt_div₀' atLeast₁ below₂ (by linarith) (by linarith)
    refine Nat.pos_of_ne_zero fun zero => ?_
    have tiny := rounds.eq_zero_iff.mp zero
    exact (tiny.trans_lt Binary64.tiny_lt_inv_overflow).not_gt bound

theorem toFloat_infinite (num : overflow ≤ q.num.natAbs) (den : q.den < overflow) :
    Binary64.ofFloat (toFloat q) = .infinite (q < 0) := by
  obtain ⟨m₂, e₂, -, -, -, denominator⟩ := denominator_finite den
  have := Binary64.ofFloat_infinite_div (numerator_infinite num) denominator
  simpa [toFloat] using this

/-- A fraction whose denominator alone overflows is a zero with its sign. -/
theorem toFloat_zero (num : q.num.natAbs < overflow) (den : overflow ≤ q.den) :
    Binary64.ofFloat (toFloat q) = .finite (q < 0) 0 0 := by
  obtain ⟨m₁, e₁, e₁', -, -, -, numerator⟩ := numerator_finite num
  have := Binary64.ofFloat_div_infinite numerator (denominator_infinite den)
  simpa [toFloat] using this

theorem toFloat_nan (num : overflow ≤ q.num.natAbs) (den : overflow ≤ q.den) :
    Binary64.ofFloat (toFloat q) = .nan :=
  Binary64.ofFloat_infinite_div_infinite (numerator_infinite num) (denominator_infinite den)

end

end Reckon.Exact
