import Reckon.Exact
import Reckon.Proofs.Binary64.Packing

/-! What the arithmetic of doubles gives, in terms of signs and magnitudes on the grid. -/
namespace Reckon.Binary64

open Float.Model.UnpackedFloat

def signOf (negative : Bool) : Sign := if negative then .negative else .positive

@[simp]
theorem signOf_beq (negative : Bool) : (signOf negative == .negative) = negative := by
  cases negative <;> rfl

@[simp]
theorem signOf_of_beq (sign : Sign) : signOf (sign == .negative) = sign := by
  cases sign <;> rfl

theorem make_zero (negative : Bool) (e : Int) : make negative 0 e = .finite negative 0 0 := rfl

theorem make_finite (positive : 0 < m) (small : e ≤ maxExponent) (negative : Bool) :
    make negative m e = .finite negative m e := by
  rw [make, if_neg positive.ne', if_neg (not_lt.mpr small)]

theorem make_infinite (positive : 0 < m) (large : maxExponent < e) (negative : Bool) :
    make negative m e = .infinite negative := by
  rw [make, if_neg positive.ne', if_pos large]

theorem make_of_le (small : e ≤ maxExponent) (negative : Bool) :
    ∃ e', make negative m e = .finite negative m e' ∧ magnitude m e' = magnitude m e := by
  rcases Nat.eq_zero_or_pos m with rfl | positive
  · exact ⟨0, make_zero negative e, by rw [magnitude_zero, magnitude_zero]⟩
  · exact ⟨e, make_finite positive small negative, rfl⟩

theorem value_make (small : e ≤ maxExponent) (negative : Bool) : (make negative m e).value? =
    some (if negative then -magnitude m e else magnitude m e) := by
  obtain ⟨e', made, same⟩ := make_of_le small negative
  rw [made, value?, same]

theorem value_finite_zero (negative : Bool) (e : Int) :
    (finite negative 0 e).value? = some 0 := by
  rw [value?, magnitude_zero, neg_zero, ite_self]

theorem value_ofFloat_zero : (ofFloat 0).value? = some 0 := by
  have bits : ofFloat 0 = .finite false 0 0 := rfl
  rw [bits, value_finite_zero]

/-- The sign has no part in whether a magnitude is finite. -/
theorem make_sign (h : make s m e' = .finite s m e) (t : Bool) : make t m e' = .finite t m e := by
  unfold make at h ⊢
  split_ifs at h ⊢ <;> simp_all

theorem ofFloat_of_unpacked (small : e ≤ maxExponent) (h : x.toModel.unpack = unpacked sign m e) :
    ofFloat x = make (sign == .negative) m e := by
  rcases Nat.eq_zero_or_pos m with rfl | positive
  · rw [ofFloat, h]
    rfl
  · rw [make_finite positive small, ofFloat, h, unpacked_of_pos positive]

/-- A finite double is a magnitude on the grid with a sign. -/
theorem of_finite (h : ofFloat x = .finite negative m e) :
    ∃ e', OnGrid m e' ∧ e' ≤ maxExponent ∧ make negative m e' = .finite negative m e ∧
      magnitude m e' = magnitude m e ∧ x.toModel.unpack = unpacked (signOf negative) m e' := by
  rcases unpack_cases x with nan | ⟨sign, infinite⟩ | ⟨sign, m', e', grid, small, finite⟩
  · rw [ofFloat, nan] at h
    cases h
  · rw [ofFloat, infinite] at h
    cases h
  · have same := (ofFloat_of_unpacked small finite).symm.trans h
    rcases Nat.eq_zero_or_pos m' with rfl | positive
    · cases same
      exact ⟨e', grid, small, rfl, by simp [magnitude], by rw [signOf_of_beq, finite]⟩
    · cases (make_finite positive small _).symm.trans same
      exact ⟨_, grid, small, make_finite positive small _, rfl, by rw [signOf_of_beq, finite]⟩

theorem grid_of_finite (h : ofFloat x = .finite negative m e) (positive : 0 < m) :
    OnGrid m e ∧ e ≤ maxExponent := by
  obtain ⟨e', grid, small, made, -, -⟩ := of_finite h
  cases (make_finite positive small negative).symm.trans made
  exact ⟨grid, small⟩

theorem of_infinite (h : ofFloat x = .infinite negative) :
    x.toModel.unpack = .infinity (signOf negative) := by
  rcases unpack_cases x with nan | ⟨sign, infinite⟩ | ⟨sign, m', e', grid, small, finite⟩
  · rw [ofFloat, nan] at h
    cases h
  · rw [ofFloat, infinite] at h
    cases h
    rw [infinite, signOf_of_beq]
  · have same := (ofFloat_of_unpacked small finite).symm.trans h
    rcases Nat.eq_zero_or_pos m' with rfl | positive
    · cases same
    · cases (make_finite positive small _).symm.trans same

theorem ofFloat_pack_infinity (sign : Sign) :
    ofFloat ⟨.pack (.infinity sign)⟩ = .infinite (sign == .negative) := by
  cases sign <;> rfl

theorem ofFloat_pack_zero (sign : Sign) :
    ofFloat ⟨.pack (.zero sign)⟩ = .finite (sign == .negative) 0 0 := by
  cases sign <;> rfl

theorem signOf_div (s t : Bool) : ((signOf s / signOf t) == Sign.negative) = (s ^^ t) := by
  cases s <;> cases t <;> rfl

section

variable {x y : Float}

theorem div_eq (x y : Float) :
    x / y = ⟨.pack (div .binary64 x.toModel.unpack y.toModel.unpack)⟩ := rfl

theorem neg_eq (x : Float) : -x = ⟨.pack (neg x.toModel.unpack)⟩ := rfl

/-- A quotient of finite doubles is the rounded quotient of their magnitudes. -/
theorem ofFloat_div (hx : ofFloat x = .finite s m₁ e₁) (hy : ofFloat y = .finite t m₂ e₂)
    (nonzero : 0 < m₂) : ∃ m e, RoundsTo (magnitude m₁ e₁ / magnitude m₂ e₂) m e ∧
      ofFloat (x / y) = make (s ^^ t) m e := by
  obtain ⟨e₁', grid₁, -, -, same₁, unpack₁⟩ := of_finite hx
  obtain ⟨e₂', grid₂, -, -, same₂, unpack₂⟩ := of_finite hy
  rw [div_eq, unpack₁, unpack₂, unpacked_of_pos nonzero, ← same₁, ← same₂]
  rcases Nat.eq_zero_or_pos m₁ with rfl | positive
  · refine ⟨0, -1074, ?_, ?_⟩
    · rw [magnitude, Nat.cast_zero, zero_mul, zero_div]
      exact roundsTo_zero le_rfl (by positivity)
    · rw [← signOf_div]
      exact ofFloat_pack (m := 0) ⟨by decide, le_rfl, .inr rfl⟩ _
  · obtain ⟨m, e, rounds, result⟩ := div_spec positive nonzero e₁' e₂' (signOf s) (signOf t)
    rw [unpacked_of_pos positive, result]
    exact ⟨m, e, rounds, signOf_div s t ▸ ofFloat_pack rounds.grid _⟩

theorem ofFloat_div_infinite (hx : ofFloat x = .finite s m₁ e₁) (hy : ofFloat y = .infinite t) :
    ofFloat (x / y) = .finite (s ^^ t) 0 0 := by
  obtain ⟨e₁', -, -, -, -, unpack₁⟩ := of_finite hx
  have quotient : div .binary64 (unpacked (signOf s) m₁ e₁') (.infinity (signOf t)) =
      .zero (signOf s / signOf t) := by
    rcases Nat.eq_zero_or_pos m₁ with rfl | positive
    · rfl
    · rw [unpacked_of_pos positive]
      rfl
  rw [div_eq, unpack₁, of_infinite hy, quotient, ofFloat_pack_zero, signOf_div]

theorem ofFloat_infinite_div (hx : ofFloat x = .infinite s) (hy : ofFloat y = .finite t m₂ e₂) :
    ofFloat (x / y) = .infinite (s ^^ t) := by
  obtain ⟨e₂', -, -, -, -, unpack₂⟩ := of_finite hy
  have quotient : div .binary64 (.infinity (signOf s)) (unpacked (signOf t) m₂ e₂') =
      .infinity (signOf s / signOf t) := by
    rcases Nat.eq_zero_or_pos m₂ with rfl | positive
    · rfl
    · rw [unpacked_of_pos positive]
      rfl
  rw [div_eq, of_infinite hx, unpack₂, quotient, ofFloat_pack_infinity, signOf_div]

theorem ofFloat_infinite_div_infinite (hx : ofFloat x = .infinite s)
    (hy : ofFloat y = .infinite t) : ofFloat (x / y) = .nan := by
  rw [div_eq, of_infinite hx, of_infinite hy]
  cases s <;> cases t <;> rfl

theorem ofFloat_neg_finite (hx : ofFloat x = .finite s m e) : ofFloat (-x) = .finite (!s) m e := by
  obtain ⟨e', grid, -, made, -, unpacks⟩ := of_finite hx
  have negated : neg (unpacked (signOf s) m e') = unpacked (signOf !s) m e' := by
    rcases Nat.eq_zero_or_pos m with rfl | positive
    · cases s <;> rfl
    · rw [unpacked_of_pos positive, unpacked_of_pos positive]
      cases s <;> rfl
  rw [neg_eq, unpacks, negated, ofFloat_pack grid]
  rw [signOf_beq]
  exact make_sign made _

theorem ofFloat_neg_infinite (hx : ofFloat x = .infinite s) : ofFloat (-x) = .infinite !s := by
  rw [neg_eq, of_infinite hx]
  cases s <;> rfl

theorem ofFloat_neg (hx : ofFloat x = make s m e) : ofFloat (-x) = make (!s) m e := by
  unfold make at hx ⊢
  split_ifs at hx ⊢
  · exact ofFloat_neg_finite hx
  · exact ofFloat_neg_infinite hx
  · exact ofFloat_neg_finite hx

theorem of_value (h : (ofFloat x).value? = some v) : ∃ negative m e, OnGrid m e ∧
    x.toModel.unpack = unpacked (signOf negative) m e ∧
    v = if negative then -magnitude m e else magnitude m e := by
  match same : ofFloat x, h with
  | .finite negative m e, h =>
    obtain ⟨e', grid, -, -, magnitude', unpacks⟩ := of_finite same
    exact ⟨negative, m, e', grid, unpacks, by rw [magnitude']; exact (Option.some.inj h).symm⟩

/-- The size of a finite double is on the grid. -/
theorem size_of_value (hx : (ofFloat x).value? = some a) :
    ∃ m e, OnGrid m e ∧ |a| = magnitude m e ∧ |a| < overflow := by
  match same : ofFloat x, hx with
  | .finite s m e, hx =>
    obtain ⟨e', grid, small, -, size, -⟩ := of_finite same
    obtain rfl := Option.some.inj hx
    have size : |if s then -magnitude m e else magnitude m e| = magnitude m e' := by
      rw [size]
      cases s <;> simp [abs_of_nonneg (magnitude_nonneg m e)]
    exact ⟨m, e', grid, size, size ▸ grid.roundsTo.finite_iff.mp small⟩

/-- Magnitudes with signs that are one number are zeros, or the same with the same sign. -/
theorem signed_inj {s t : Bool} {r r' : Rat} (nonneg : 0 ≤ r) (nonneg' : 0 ≤ r')
    (same : (if s then -r else r) = if t then -r' else r') : r = 0 ∧ r' = 0 ∨ s = t ∧ r = r' := by
  cases s <;> cases t <;> simp only [if_true, if_false, Bool.false_eq_true] at same
  · exact .inr ⟨rfl, same⟩
  · exact .inl ⟨by linarith, by linarith⟩
  · exact .inl ⟨by linarith, by linarith⟩
  · exact .inr ⟨rfl, neg_inj.mp same⟩

theorem unpacked_ne_nan (sign : Sign) (m : Nat) (e : Int) :
    unpacked sign m e ≠ .notANumber := by
  unfold unpacked
  split <;> simp

theorem value_zero (h : x.toModel.unpack = .zero sign) : (ofFloat x).value? = some 0 := by
  rw [ofFloat, h, value_finite_zero]

/-- A double equals a finite one exactly if it has the same value, as the zeros of both signs
have. -/
theorem beq_iff_value (hy : (ofFloat y).value? = some v) :
    (x == y) = true ↔ (ofFloat x).value? = some v := by
  have equal : (x == y) = true ↔ x.toModel.unpack.beq y.toModel.unpack = true := Iff.rfl
  rw [equal, beq_iff_ne_notANumber_and_eq]
  constructor
  · rintro ⟨-, -, same | ⟨zero, zero'⟩ | ⟨zero, zero'⟩⟩
    · rwa [ofFloat, same]
    · rw [value_zero zero, ← hy, value_zero zero']
    · rw [value_zero zero, ← hy, value_zero zero']
  · intro hx
    obtain ⟨s, m, e, grid, unpacks, value⟩ := of_value hx
    obtain ⟨t, m', e', grid', unpacks', value'⟩ := of_value hy
    rw [unpacks, unpacks']
    refine ⟨unpacked_ne_nan _ _ _, unpacked_ne_nan _ _ _, ?_⟩
    rcases signed_inj (magnitude_nonneg m e) (magnitude_nonneg m' e') (value.symm.trans value') with
      ⟨zero, zero'⟩ | ⟨rfl, same⟩
    · rw [magnitude_eq_zero.mp zero, magnitude_eq_zero.mp zero']
      cases s <;> cases t <;> simp [unpacked, signOf]
    · obtain ⟨rfl, rfl⟩ := grid.eq_of_magnitude grid' same
      exact .inl rfl

end

section

variable {n : Nat}

/-- A natural number rounds to a magnitude, be it finite or not. -/
theorem exists_roundsTo (n : Nat) : ∃ m e, RoundsTo n m e := by
  rcases Nat.eq_zero_or_pos n with rfl | positive
  · exact ⟨0, -1074, by simpa using roundsTo_zero (v := 0) le_rfl (by positivity)⟩
  · obtain ⟨m, e, rounds, -⟩ := round_spec positive 0 .positive
    exact ⟨m, e, magnitude_natural n ▸ rounds⟩

def one : Float := Float.ofBits 0x3FF0000000000000

theorem unpack_one : one.toModel.unpack = .finite .positive (2 ^ 52) (-52) (by decide) := rfl

theorem ofNat_small (small : n < 2 ^ 53) : Float.ofNat n = n.toUInt64.toFloat * one := by
  change Float.ofScientific n false 0 = _
  rw [Float.ofScientific, dif_pos ⟨small, Nat.zero_le _⟩]
  rfl

theorem unpack_toFloat_toUInt64 (positive : 0 < n) (small : n < 2 ^ 53) : ∃ m e, ∃ h : 0 < m,
    RoundsTo n m e ∧ n.toUInt64.toFloat.toModel.unpack = .finite .positive m e h := by
  obtain ⟨m, e, rounds, converted⟩ := round_spec positive 0 .positive
  rw [magnitude_natural] at rounds
  have notZero : 0 < m := rounds.pos_of_one_le (by exact_mod_cast positive)
  have finite : e ≤ maxExponent := rounds.finite_iff.mpr
    (lt_trans (by exact_mod_cast small) (two_pow_lt_overflow (k := 53) (by decide)))
  have number : n.toUInt64.toNat = n := Nat.mod_eq_of_lt (small.trans (by decide))
  have integer : Float.Model.UnpackedFloat.ofNat .binary64 n = .finite .positive m e notZero := by
    rw [Float.Model.UnpackedFloat.ofNat, ofInt, Float.Model.UnpackedFloat.normalize,
      Int.compare_eq_gt.mpr (by omega), ← unpacked_of_pos notZero, ← converted]
    rfl
  refine ⟨m, e, notZero, rounds, ?_⟩
  change (Float.Model.ofUInt64 _).unpack = _
  rw [Float.Model.ofUInt64, ofUInt64, number, integer]
  exact unpack_pack rounds.grid notZero finite _

theorem ofFloat_ofNat_small (positive : 0 < n) (small : n < 2 ^ 53) :
    ∃ m e, RoundsTo n m e ∧ ofFloat (Float.ofNat n) = make false m e := by
  obtain ⟨m, e, notZero, rounds, unpacks⟩ := unpack_toFloat_toUInt64 positive small
  have enough : 52 ≤ (m * 2 ^ 52).log2 := by
    rw [← Nat.shiftLeft_eq, log2_shiftLeft notZero]
    omega
  obtain ⟨m', e', rounds', product⟩ :=
    mul_spec notZero (by decide) enough e (-52) .positive .positive
  rw [magnitude_one, mul_one] at rounds'
  obtain ⟨rfl, rfl⟩ := rounds'.unique rounds.grid.roundsTo
  refine ⟨_, _, rounds, ?_⟩
  rw [ofNat_small small]
  change ofFloat ⟨.pack (mul .binary64 _ _)⟩ = _
  rw [unpacks, unpack_one, product]
  exact ofFloat_pack rounds.grid .positive

theorem ofNat_large (large : 2 ^ 53 ≤ n) : Float.ofNat n =
    ⟨.pack (mul .binary64
      (.finite .positive (n <<< 53) (-53) (Nat.shiftLeft_pos_iff.mpr (by omega)))
      (.finite .positive 1 0 one_pos))⟩ := by
  change Float.ofScientific n false 0 = _
  rw [Float.ofScientific, dif_neg (by omega)]
  change Float.ofModel (Float.Model.ofScientific n 0) = _
  rw [Float.Model.ofScientific, ofScientific, dif_neg (by omega), if_neg (by decide),
    if_neg (by simp), if_pos le_rfl]
  rfl

theorem ofFloat_ofNat_large (large : 2 ^ 53 ≤ n) :
    ∃ m e, RoundsTo n m e ∧ ofFloat (Float.ofNat n) = make false m e := by
  have positive : 0 < n := by omega
  have enough : 52 ≤ ((n <<< 53) * 1).log2 := by
    rw [mul_one, log2_shiftLeft positive]
    omega
  have whole : magnitude (n <<< 53) (-53) * magnitude 1 0 = n := by
    have shifted : magnitude (n <<< 53) (-53) = magnitude n 0 := magnitude_shiftLeft n 53 0
    rw [shifted, magnitude_natural, magnitude_natural, Nat.cast_one, mul_one]
  obtain ⟨m, e, rounds, product⟩ :=
    mul_spec (Nat.shiftLeft_pos_iff.mpr positive) one_pos enough (-53) 0 .positive .positive
  rw [whole] at rounds
  rw [ofNat_large large, product]
  exact ⟨m, e, rounds, ofFloat_pack rounds.grid .positive⟩

/-- A natural number is rounded once. -/
theorem ofFloat_ofNat (rounds : RoundsTo n m e) :
    ofFloat (Float.ofNat n) = make false m e := by
  have result : ∃ m e, RoundsTo n m e ∧ ofFloat (Float.ofNat n) = make false m e := by
    rcases Nat.eq_zero_or_pos n with rfl | positive
    · exact ⟨0, -1074, by simpa using roundsTo_zero (v := 0) le_rfl (by positivity), rfl⟩
    · rcases lt_or_ge n (2 ^ 53) with small | large
      · exact ofFloat_ofNat_small positive small
      · exact ofFloat_ofNat_large large
  obtain ⟨m', e', rounds', converted⟩ := result
  obtain ⟨rfl, rfl⟩ := rounds.unique rounds'
  exact converted

end

end Reckon.Binary64
