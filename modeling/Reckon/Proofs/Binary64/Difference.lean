import Reckon.Proofs.Binary64.Order

/-! Differences, absolute values and products of doubles. A difference is rounded once, and its sign
is no part of what is rounded. -/
namespace Reckon.Binary64

open Float.Model (Format)
open Float.Model.UnpackedFloat

/-- A signed integer is rounded by its magnitude. -/
theorem normalize_spec (n : Int) (e : Int) : ∃ sign m e', RoundsTo (|(n : Rat)| * 2 ^ e) m e' ∧
    Float.Model.UnpackedFloat.normalize .binary64 n e .positive = unpacked sign m e' := by
  have value : magnitude n.natAbs e = |(n : Rat)| * 2 ^ e := by
    rw [magnitude, Nat.cast_natAbs, Int.cast_abs]
  rw [← value, Float.Model.UnpackedFloat.normalize]
  rcases lt_trichotomy n 0 with negative | rfl | positive
  · obtain ⟨m, e', rounds, result⟩ := round_spec (Int.natAbs_pos.mpr negative.ne) e .negative
    refine ⟨.negative, m, e', rounds, ?_⟩
    rw [Int.compare_eq_lt.mpr negative, ← result, show n.natAbs = (-n).toNat by omega]
  · refine ⟨.positive, 0, -1074, ?_, rfl⟩
    rw [Int.natAbs_zero, magnitude_zero]
    exact roundsTo_zero le_rfl (by positivity)
  · obtain ⟨m, e', rounds, result⟩ := round_spec (Int.natAbs_pos.mpr positive.ne') e .positive
    refine ⟨.positive, m, e', rounds, ?_⟩
    rw [Int.compare_eq_gt.mpr positive, ← result, show n.natAbs = n.toNat by omega]

def withSign (negative : Bool) (r : Rat) : Rat := if negative then -r else r

theorem abs_withSign (s : Bool) (r : Rat) : |withSign s r| = |r| := by
  cases s <;> simp [withSign]

theorem withSign_mul (s : Bool) (r t : Rat) : withSign s r * t = withSign s (r * t) := by
  cases s <;> simp [withSign]

theorem withSign_zero (s : Bool) : withSign s 0 = 0 := by
  cases s <;> simp [withSign]

theorem apply_signOf (s : Bool) (n : Nat) :
    (((signOf s).apply n : Int) : Rat) = withSign s n := by
  cases s <;> simp [signOf, Sign.apply, withSign]

/-- The difference of two doubles is the rounded one of their values, up to the sign of a zero. -/
theorem sub_spec (grid₁ : OnGrid m₁ e₁) (grid₂ : OnGrid m₂ e₂) (s t : Bool) :
    ∃ sign m e, RoundsTo |withSign s (magnitude m₁ e₁) - withSign t (magnitude m₂ e₂)| m e ∧
      sub .binary64 (unpacked (signOf s) m₁ e₁) (unpacked (signOf t) m₂ e₂) =
        unpacked sign m e := by
  rcases Nat.eq_zero_or_pos m₁ with rfl | positive₁ <;>
    rcases Nat.eq_zero_or_pos m₂ with rfl | positive₂
  · have rounds : RoundsTo 0 0 (-1074) := roundsTo_zero le_rfl (by positivity)
    rw [magnitude_zero, magnitude_zero, withSign_zero, withSign_zero, sub_zero, abs_zero]
    cases s <;> cases t <;> exact ⟨_, 0, _, rounds, rfl⟩
  · rw [magnitude_zero, withSign_zero, zero_sub, abs_neg, abs_withSign,
      abs_of_nonneg (magnitude_nonneg m₂ e₂), unpacked_of_pos positive₂]
    exact ⟨-signOf t, m₂, e₂, grid₂.roundsTo, (unpacked_of_pos positive₂).symm⟩
  · rw [magnitude_zero, withSign_zero, sub_zero, abs_withSign,
      abs_of_nonneg (magnitude_nonneg m₁ e₁), unpacked_of_pos positive₁]
    exact ⟨signOf s, m₁, e₁, grid₁.roundsTo, (unpacked_of_pos positive₁).symm⟩
  · -- Both mantissas are moved to the smaller exponent.
    generalize smaller : min e₁ e₂ = e
    obtain ⟨k₁, rfl⟩ : ∃ k₁ : Nat, e₁ = e + k₁ := ⟨(e₁ - e).toNat, by omega⟩
    obtain ⟨k₂, rfl⟩ : ∃ k₂ : Nat, e₂ = e + k₂ := ⟨(e₂ - e).toNat, by omega⟩
    have moved (m k : Nat) : magnitude m (e + k) = (m <<< k : Nat) * 2 ^ e := by
      have shifted := magnitude_shiftLeft m k (e + k)
      rw [add_sub_cancel_right] at shifted
      exact shifted.symm
    obtain ⟨sign, m, e', rounds, result⟩ := normalize_spec
      ((signOf s).apply (m₁ <<< k₁ : Nat) - (signOf t).apply (m₂ <<< k₂ : Nat)) e
    have value : |withSign s (magnitude m₁ (e + k₁)) - withSign t (magnitude m₂ (e + k₂))| =
        |(((signOf s).apply (m₁ <<< k₁ : Nat) - (signOf t).apply (m₂ <<< k₂ : Nat) : Int) : Rat)| *
          2 ^ e := by
      have unit : (0 : Rat) < 2 ^ e := by positivity
      rw [Int.cast_sub, apply_signOf, apply_signOf, moved, moved, ← withSign_mul,
        ← withSign_mul, ← sub_mul, abs_mul, abs_of_pos unit]
    refine ⟨sign, m, e', value ▸ rounds, ?_⟩
    rw [← result, unpacked_of_pos positive₁, unpacked_of_pos positive₂, sub]
    simp only [smaller, decreaseExponent, add_sub_cancel_left, Int.toNat_natCast]

section

variable {x y : Float}

/-- The difference of two finite doubles is rounded once. -/
theorem ofFloat_sub (hx : (ofFloat x).value? = some a) (hy : (ofFloat y).value? = some b) :
    ∃ negative m e, RoundsTo |a - b| m e ∧ ofFloat (x - y) = make negative m e := by
  obtain ⟨s, m₁, e₁, grid₁, unpack₁, rfl⟩ := of_value hx
  obtain ⟨t, m₂, e₂, grid₂, unpack₂, rfl⟩ := of_value hy
  obtain ⟨sign, m, e, rounds, difference⟩ := sub_spec grid₁ grid₂ s t
  refine ⟨sign == .negative, m, e, rounds, ?_⟩
  change ofFloat ⟨.pack (sub .binary64 x.toModel.unpack y.toModel.unpack)⟩ = _
  rw [unpack₁, unpack₂, difference]
  exact ofFloat_pack rounds.grid sign

theorem ofFloat_abs_finite (hx : ofFloat x = .finite s m e) :
    ofFloat x.abs = .finite false m e := by
  obtain ⟨e', grid, -, made, -, unpacks⟩ := of_finite hx
  have positive : abs (unpacked (signOf s) m e') = unpacked (signOf false) m e' := by
    unfold unpacked
    split <;> rfl
  change ofFloat ⟨.pack (abs x.toModel.unpack)⟩ = _
  rw [unpacks, positive, ofFloat_pack grid, signOf_beq]
  exact make_sign made false

theorem ofFloat_abs_infinite (hx : ofFloat x = .infinite s) : ofFloat x.abs = .infinite false := by
  change ofFloat ⟨.pack (abs x.toModel.unpack)⟩ = _
  rw [of_infinite hx]
  exact ofFloat_pack_infinity .positive

theorem ofFloat_abs_make (hx : ofFloat x = make s m e) : ofFloat x.abs = make false m e := by
  unfold make at hx ⊢
  split_ifs at hx ⊢
  · exact ofFloat_abs_finite hx
  · exact ofFloat_abs_infinite hx
  · exact ofFloat_abs_finite hx

theorem value_abs (hx : (ofFloat x).value? = some a) : (ofFloat x.abs).value? = some |a| := by
  match same : ofFloat x, hx with
  | .finite s m e, hx =>
    obtain rfl := Option.some.inj hx
    rw [ofFloat_abs_finite same, value?]
    cases s <;> simp [abs_of_nonneg (magnitude_nonneg m e)]

/-- Finite doubles of one size have the same absolute value, as there is one zero without a sign. -/
theorem abs_inj (hx : (ofFloat x).value? = some a) (hy : (ofFloat y).value? = some b)
    (same : |a| = |b|) : x.abs = y.abs := by
  have sizes := (value_abs hx).trans (same ▸ (value_abs hy).symm)
  match sx : ofFloat x, sy : ofFloat y, hx, hy with
  | .finite s m e, .finite t m' e', _, _ =>
    rw [ofFloat_abs_finite sx, ofFloat_abs_finite sy] at sizes
    obtain ⟨_, grid, -, made, equal, -⟩ := of_finite sx
    obtain ⟨_, grid', -, made', equal', -⟩ := of_finite sy
    have sizes : magnitude m e = magnitude m' e' := Option.some.inj sizes
    obtain ⟨rfl, rfl⟩ := grid.eq_of_magnitude grid' (equal.trans (sizes.trans equal'.symm))
    refine ofFloat_inj ?_
    rw [ofFloat_abs_finite sx, ofFloat_abs_finite sy, ← make_sign made, ← make_sign made']

/-- The distance of two doubles is the same from both sides. -/
theorem distance_comm (hx : (ofFloat x).value? = some a) (hy : (ofFloat y).value? = some b) :
    (x - y).abs = (y - x).abs := by
  obtain ⟨s, m, e, rounds, difference⟩ := ofFloat_sub hx hy
  obtain ⟨t, m', e', rounds', difference'⟩ := ofFloat_sub hy hx
  rw [abs_sub_comm] at rounds
  obtain ⟨rfl, rfl⟩ := rounds.unique rounds'
  refine ofFloat_inj ?_
  rw [ofFloat_abs_make difference, ofFloat_abs_make difference']

theorem ofFloat_mul (hx : ofFloat x = .finite false m₁ e₁) (full : 2 ^ 52 ≤ m₁)
    (hy : ofFloat y = .finite false m₂ e₂) :
    ∃ m e, RoundsTo (magnitude m₁ e₁ * magnitude m₂ e₂) m e ∧ ofFloat (x * y) = make false m e := by
  obtain ⟨e₁', -, -, -, same₁, unpack₁⟩ := of_finite hx
  obtain ⟨e₂', -, -, -, same₂, unpack₂⟩ := of_finite hy
  have positive₁ : 0 < m₁ := (by decide : 0 < 2 ^ 52).trans_le full
  change ∃ m e, _ ∧ ofFloat ⟨.pack (mul .binary64 x.toModel.unpack y.toModel.unpack)⟩ = _
  rw [unpack₁, unpack₂, unpacked_of_pos positive₁, ← same₁, ← same₂]
  rcases Nat.eq_zero_or_pos m₂ with rfl | positive₂
  · refine ⟨0, -1074, ?_, ofFloat_pack_zero .positive⟩
    rw [magnitude_zero, mul_zero]
    exact roundsTo_zero le_rfl (by positivity)
  · have enough : 52 ≤ (m₁ * m₂).log2 := by
      rw [Nat.le_log2 (by positivity)]
      exact full.trans (Nat.le_mul_of_pos_right _ positive₂)
    obtain ⟨m, e, rounds, product⟩ :=
      mul_spec positive₁ positive₂ enough e₁' e₂' (signOf false) (signOf false)
    rw [unpacked_of_pos positive₂, product]
    exact ⟨m, e, rounds, ofFloat_pack rounds.grid .positive⟩

end

end Reckon.Binary64
