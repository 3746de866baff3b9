import Reckon.Proofs.Binary64.Arithmetic

/-! The integers among the doubles. Up to 53 binary digits every integer is a double, and beyond
them all doubles are even. -/
namespace Reckon.Binary64

def IsDouble (n : Nat) : Prop := ∃ m e, OnGrid m e ∧ e ≤ maxExponent ∧ magnitude m e = n

theorem IsDouble.roundsTo (h : IsDouble n) : ∃ m e, RoundsTo n m e ∧ magnitude m e = n := by
  obtain ⟨m, e, grid, -, value⟩ := h
  exact ⟨m, e, value ▸ grid.roundsTo, value⟩

theorem IsDouble.lt_overflow (h : IsDouble n) : n < overflow := by
  obtain ⟨m, e, grid, small, value⟩ := h
  exact value ▸ grid.roundsTo.finite_iff.mp small

/-- Natural numbers of at most 53 digits are doubles. -/
theorem isDouble_of_lt {n : Nat} (small : n < 2 ^ 53) : IsDouble n := by
  rcases Nat.eq_zero_or_pos n with rfl | positive
  · exact ⟨0, -1074, ⟨by decide, le_rfl, .inr rfl⟩, by decide, by simp [magnitude_zero]⟩
  · have log : n.log2 ≤ 52 := Nat.lt_succ_iff.mp ((Nat.log2_lt positive.ne').mpr small)
    have digits : (n <<< (52 - n.log2)).log2 = 52 := by
      rw [log2_shiftLeft positive]
      omega
    have bounds := (Nat.log2_eq_iff (Nat.shiftLeft_pos_iff.mpr positive).ne').mp digits
    refine ⟨n <<< (52 - n.log2), 0 - (52 - n.log2 : Nat), ⟨bounds.2, by omega, .inl bounds.1⟩,
      by rw [maxExponent]; omega, ?_⟩
    rw [magnitude, magnitude_shiftLeft, magnitude_natural]

/-- A power of two only moves the exponent of a double. -/
theorem IsDouble.mul_two_pow {n k : Nat} (h : IsDouble n) (positive : 0 < n)
    (small : (n : Rat) * 2 ^ k < overflow) : IsDouble (n * 2 ^ k) := by
  obtain ⟨m, e, grid, -, value⟩ := h
  have full := (value ▸ grid.roundsTo : RoundsTo n m e).full_of_one_le (by exact_mod_cast positive)
  have grid' : OnGrid m (e + k) := ⟨grid.digits, by have := grid.least; omega, .inl full⟩
  have value' : magnitude m (e + k) = (n * 2 ^ k : Nat) := by
    rw [magnitude, zpow_add₀ (by decide), zpow_natCast, ← mul_assoc, ← magnitude, value]
    push_cast
    rfl
  refine ⟨m, e + k, grid', grid'.roundsTo.finite_iff.mpr ?_, value'⟩
  rw [value']
  exact_mod_cast small

/-- The powers of ten up to the twenty-second are doubles, and so are their divisors. -/
theorem isDouble_of_dvd_ten_pow {d k : Nat} (divides : d ∣ 10 ^ k) (short : k ≤ 22) :
    IsDouble d := by
  have split : d ∣ 2 ^ 22 * 5 ^ 22 := by
    rw [← mul_pow]
    exact divides.trans (pow_dvd_pow 10 short)
  obtain ⟨two, five, twos, fives, rfl⟩ := Nat.dvd_mul.mp split
  obtain ⟨j, -, rfl⟩ := (Nat.dvd_prime_pow Nat.prime_two).mp twos
  have bound : five ≤ 5 ^ 22 := Nat.le_of_dvd (by positivity) fives
  have positive : 0 < five := Nat.pos_of_dvd_of_pos fives (by positivity)
  have power : 2 ^ j ≤ 2 ^ 22 := Nat.le_of_dvd (by positivity) twos
  rw [Nat.mul_comm]
  refine (isDouble_of_lt (bound.trans_lt (by decide))).mul_two_pow positive ?_
  have : five * 2 ^ j ≤ 5 ^ 22 * 2 ^ 22 := Nat.mul_le_mul bound power
  calc (five : Rat) * 2 ^ j ≤ 5 ^ 22 * 2 ^ 22 := by exact_mod_cast this
    _ < 2 ^ 100 := by norm_num
    _ < overflow := two_pow_lt_overflow (by decide)

/-- A magnitude that is a natural number has no digits behind the point. -/
theorem natural_of_magnitude {n : Nat} (h : magnitude m e = n) :
    isIntegral m e ∧ m / unit e * Nat.pow 2 e.toNat = n := by
  rcases le_total 0 e with whole | fraction
  · obtain ⟨k, rfl⟩ := Int.eq_ofNat_of_zero_le whole
    have value : m * 2 ^ k = n := by
      rw [magnitude, zpow_natCast] at h
      exact_mod_cast h
    have one : unit k = 1 := by simp [unit]
    rw [isIntegral, one, Nat.div_one, Int.toNat_natCast]
    exact ⟨by simp [Nat.mod_one], value⟩
  · obtain ⟨k, rfl⟩ : ∃ k : Nat, e = -k := ⟨(-e).toNat, by omega⟩
    have value : m = n * 2 ^ k := by
      rw [magnitude, zpow_neg, zpow_natCast, ← div_eq_mul_inv, div_eq_iff (by positivity)] at h
      exact_mod_cast h
    have places : unit (-k) = 2 ^ k := by simp [unit]
    have point : (-(k : Int)).toNat = 0 := by omega
    rw [isIntegral, places, point, value, Nat.mul_mod_left, Nat.mul_div_cancel _ (by positivity)]
    exact ⟨rfl, Nat.mul_one n⟩

theorem integer?_of_magnitude {n : Nat} (finite : ofFloat x = .finite negative m e)
    (natural : magnitude m e = n) :
    integer? x = some (if negative then -(n : Int) else n) ∧ hasFraction x = false := by
  obtain ⟨integral, value⟩ := natural_of_magnitude natural
  rw [integer?, hasFraction, finite]
  dsimp only
  rw [if_pos integral, value, integral]
  exact ⟨rfl, rfl⟩

theorem magnitude_of_isIntegral (h : isIntegral m e = true) :
    magnitude m e = (m / unit e * Nat.pow 2 e.toNat : Nat) := by
  obtain ⟨n, rfl⟩ : unit e ∣ m := Nat.dvd_of_mod_eq_zero (of_decide_eq_true h)
  have positive : 0 < unit e := Nat.pow_pos (by decide)
  rw [Nat.mul_div_cancel_left n positive]
  rcases le_total 0 e with whole | fraction
  · obtain ⟨k, rfl⟩ := Int.eq_ofNat_of_zero_le whole
    simp [magnitude, unit]
  · obtain ⟨k, rfl⟩ : ∃ k : Nat, e = -k := ⟨(-e).toNat, by omega⟩
    have places : unit (-k) = 2 ^ k := by simp [unit]
    have point : (-(k : Int)).toNat = 0 := by omega
    rw [places, point, magnitude, zpow_neg, zpow_natCast, ← div_eq_mul_inv,
      div_eq_iff (by positivity)]
    push_cast
    ring

theorem value?_of_integer? {i : Int} (found : integer? x = some i) :
    (ofFloat x).value? = some (i : Rat) := by
  unfold integer? at found
  split at found
  · rename_i negative m e same
    obtain ⟨integral, made⟩ := Option.ite_none_right_eq_some.mp found
    dsimp only at made
    rw [same, value?, magnitude_of_isIntegral integral]
    generalize m / unit e * Nat.pow 2 e.toNat = n at made
    obtain rfl := Option.some.inj made
    cases negative <;> simp
  · cases found

/-- The integer that a double is, is its value. -/
theorem integer?_eq_some {i : Int} : integer? x = some i ↔ (ofFloat x).value? = some (i : Rat) := by
  refine ⟨value?_of_integer?, fun value => ?_⟩
  match same : ofFloat x with
  | .nan | .infinite _ => simp [same, value?] at value
  | .finite negative m e =>
    have signed : (if negative then -magnitude m e else magnitude m e) = i :=
      Option.some.inj ((congrArg value? same).symm.trans value)
    have natural : magnitude m e = i.natAbs := by
      rw [Nat.cast_natAbs, Int.cast_abs, ← signed]
      cases negative <;> simp [abs_of_nonneg (magnitude_nonneg m e)]
    have found := (integer?_of_magnitude same natural).1
    have value' := (value?_of_integer? found).symm.trans value
    rw [found, Option.some_inj]
    exact_mod_cast Option.some.inj value'
/-- Beyond 53 digits the units of the last place are even. -/
theorem parity_of_roundsTo {n : Nat} (rounds : RoundsTo n m e) :
    ∃ k : Nat, magnitude m e = k ∧ (Odd k ↔ Odd n ∧ n < 2 ^ 53) := by
  rcases lt_or_ge n (2 ^ 53) with small | large
  · obtain ⟨_, _, grid, -, value⟩ := isDouble_of_lt small
    obtain ⟨rfl, rfl⟩ := rounds.unique (value ▸ grid.roundsTo)
    exact ⟨n, value, (and_iff_left small).symm⟩
  · have edge : RoundsTo (2 ^ 53 : Nat) (2 ^ 52) 1 := by
      have grid : OnGrid (2 ^ 52) 1 := ⟨by decide, by decide, .inl le_rfl⟩
      have value : magnitude (2 ^ 52) 1 = (2 ^ 53 : Nat) := by norm_num [magnitude]
      exact value ▸ grid.roundsTo
    have above : 1 ≤ e := by
      by_contra below
      have before : Before m e (2 ^ 52) 1 := .inl (not_le.mp below)
      exact (rounds.lt_of_before edge before).not_ge (by exact_mod_cast large)
    obtain ⟨j, rfl⟩ : ∃ j : Nat, e = (j + 1 : Nat) := ⟨(e - 1).toNat, by omega⟩
    refine ⟨m * 2 ^ (j + 1), by rw [magnitude, zpow_natCast]; push_cast; rfl, ?_⟩
    exact iff_of_false (by simp [pow_succ, Nat.odd_mul]) fun h => h.2.not_ge large

end Reckon.Binary64
