import Reckon.Operation.Call
import Reckon.Proofs.Exact.Downgrade
import Reckon.Proofs.Shape

/-! Rounding of exact numbers to decimals. A number has one nearest number with so many decimals,
the one further from zero where two are equally near. That alone makes rounding odd, monotone, and
the identity on what has no more decimals. -/
namespace Reckon

namespace Exact

def HasPlaces (n : Nat) (q : Rat) : Prop := ∃ k : Int, q * 10 ^ n = k

/-- Among the numbers with `n` decimals, `q` is nearest to `r`, and further from zero than any other
one that is as near. -/
structure Nearest (n : Nat) (r q : Rat) : Prop where
  places : HasPlaces n q
  near : |q - r| ≤ 1 / 10 ^ n / 2
  away : ∀ p, HasPlaces n p → p ≠ q → |p - r| = |q - r| → |p| < |q|

section

variable {n m : Nat} {r t p q : Rat}

theorem HasPlaces.neg (h : HasPlaces n q) : HasPlaces n (-q) := by
  obtain ⟨k, same⟩ := h
  exact ⟨-k, by rw [neg_mul, same, Int.cast_neg]⟩

theorem HasPlaces.mono (h : HasPlaces n q) (more : n ≤ m) : HasPlaces m q := by
  obtain ⟨k, same⟩ := h
  refine ⟨k * 10 ^ (m - n), ?_⟩
  rw [← Nat.add_sub_of_le more, pow_add, ← mul_assoc, same, Nat.add_sub_cancel_left]
  push_cast
  rfl

/-- Different numbers with `n` decimals differ by a unit of the last place. -/
theorem HasPlaces.distance (hp : HasPlaces n p) (hq : HasPlaces n q) (less : p < q) :
    1 / 10 ^ n ≤ q - p := by
  obtain ⟨j, hj⟩ := hp
  obtain ⟨k, hk⟩ := hq
  have scale : (0 : Rat) < 10 ^ n := by positivity
  have below : (j : Rat) < k := by
    rw [← hj, ← hk]
    exact mul_lt_mul_of_pos_right less scale
  have next : (j : Rat) + 1 ≤ k := by exact_mod_cast below
  rw [div_le_iff₀ scale, sub_mul, hj, hk]
  linarith

/-- A number with at most `n` decimals is its own nearest. -/
theorem HasPlaces.nearest (h : HasPlaces n q) : Nearest n q q := by
  refine ⟨h, ?_, fun p _ differ same => ?_⟩
  · rw [sub_self, abs_zero]
    positivity
  · rw [sub_self, abs_zero, abs_eq_zero, sub_eq_zero] at same
    exact absurd same differ

theorem Nearest.neg (h : Nearest n r q) : Nearest n (-r) (-q) := by
  have mirrored (p : Rat) : |p - -r| = |-p - r| := by
    rw [← abs_neg]
    congr 1
    ring
  refine ⟨h.places.neg, ?_, fun p places differ same => ?_⟩
  · rw [mirrored, neg_neg]
    exact h.near
  · rw [mirrored, mirrored (-q), neg_neg] at same
    rw [← abs_neg, abs_neg q]
    exact h.away (-p) places.neg (fun back => differ (neg_eq_iff_eq_neg.mp back)) same

/-- Two that are both nearest are on opposite sides and equally near, and then each is further from
zero than the other. -/
theorem Nearest.le (hp : Nearest n r p) (hq : Nearest n r q) : q ≤ p := by
  by_contra above
  have less := not_le.mp above
  have apart := hp.places.distance hq.places less
  have left := abs_le.mp hp.near
  have right := abs_le.mp hq.near
  have hp' : |p - r| = 1 / 10 ^ n / 2 := by
    rw [abs_of_nonpos (by linarith)]
    linarith
  have hq' : |q - r| = 1 / 10 ^ n / 2 := by
    rw [abs_of_nonneg (by linarith)]
    linarith
  have further := hp.away q hq.places less.ne' (hq'.trans hp'.symm)
  exact further.not_gt (hq.away p hp.places less.ne (hp'.trans hq'.symm))

theorem Nearest.unique (hp : Nearest n r p) (hq : Nearest n r q) : p = q :=
  le_antisymm (hq.le hp) (hp.le hq)

theorem Nearest.mono (hq : Nearest n r q) (hp : Nearest n t p) (below : r ≤ t) : q ≤ p := by
  by_contra above
  have apart := hp.places.distance hq.places (not_le.mp above)
  have left := abs_le.mp hp.near
  have right := abs_le.mp hq.near
  -- Both are half a unit off, so it is one number that is rounded.
  obtain rfl : r = t := by linarith
  exact above (hq.unique hp).le

/-- What is rounded is less than a half from the integer below the one it is rounded to. -/
theorem round_abs (q : Rat) : ∃ k : Nat, round q = (if q < 0 then -(k : Rat) else k) ∧
    (k : Rat) - 1 / 2 ≤ |q| ∧ |q| < k + 1 / 2 := by
  have den : (0 : Rat) < q.den := by exact_mod_cast q.pos
  have low := Nat.div_mul_le_self (2 * q.num.natAbs + q.den) (2 * q.den)
  have high := Nat.lt_div_mul_add (a := 2 * q.num.natAbs + q.den) (b := 2 * q.den) (by positivity)
  refine ⟨(2 * q.num.natAbs + q.den) / (2 * q.den), ?_, ?_, ?_⟩
  · rw [round]
    simp only [Rat.num_neg, Int.cast_neg, Int.cast_natCast]
  · have low : (_ : Rat) ≤ _ := Nat.cast_le.mpr low
    push_cast at low
    rw [abs_eq_div, le_div_iff₀ den]
    linarith
  · have high : (_ : Rat) < _ := Nat.cast_lt.mpr high
    push_cast at high
    rw [abs_eq_div, div_lt_iff₀ den]
    linarith

/-- An integer that is at most a half above a number and less than a half below. -/
theorem nearest_natural {k : Nat} (nonneg : 0 ≤ r) (low : (k : Rat) - 1 / 2 ≤ r)
    (high : r < k + 1 / 2) : Nearest 0 r k := by
  refine ⟨⟨k, by simp⟩, ?_, ?_⟩
  · rw [pow_zero, abs_le]
    constructor <;> linarith
  · rintro p ⟨j, places⟩ differ same
    rw [pow_zero, mul_one] at places
    subst places
    rcases abs_eq_abs.mp same with same | opposite
    · exact absurd (sub_left_inj.mp same) differ
    · have twice : (j : Rat) + k = 2 * r := by linarith
      have sum : 0 ≤ j + k := by
        have : (0 : Rat) ≤ j + k := by linarith
        exact_mod_cast this
      have less : (k : Int) ≤ j + 1 := by
        have : (k : Rat) ≤ j + 1 := by linarith
        exact_mod_cast this
      have more : j < k + 1 := by
        have : (j : Rat) < k + 1 := by linarith
        exact_mod_cast this
      have other : j ≠ k := by exact_mod_cast differ
      have inside : -(k : Int) < j ∧ j < k := by omega
      rw [Nat.abs_cast, ← Int.cast_abs]
      exact_mod_cast abs_lt.mpr inside

/-- The nearest integer, a half away from zero. -/
theorem round_nearest (q : Rat) : Nearest 0 q (round q) := by
  obtain ⟨k, made, low, high⟩ := round_abs q
  have positive := nearest_natural (abs_nonneg q) low high
  rw [made]
  split
  · rename_i negative
    rw [abs_of_neg negative] at positive
    simpa using positive.neg
  · rename_i nonneg
    rwa [abs_of_nonneg (not_lt.mp nonneg)] at positive

/-- A number is rounded to decimals by rounding it in units of the last place. -/
theorem Nearest.unscale (h : Nearest 0 (r * 10 ^ n) q) : Nearest n r (q / 10 ^ n) := by
  have scale : (0 : Rat) < 10 ^ n := by positivity
  have off (p : Rat) : |p * 10 ^ n - r * 10 ^ n| = |p - r| * 10 ^ n := by
    rw [← sub_mul, abs_mul, abs_of_pos scale]
  have back : q / 10 ^ n * 10 ^ n = q := div_mul_cancel₀ q scale.ne'
  obtain ⟨⟨k, same⟩, near, away⟩ := h
  rw [pow_zero, mul_one] at same
  refine ⟨⟨k, back.trans same⟩, ?_, fun p places differ level => ?_⟩
  · rw [div_right_comm, le_div_iff₀ scale, ← off, back]
    simpa using near
  · obtain ⟨j, places⟩ := places
    have further := away (p * 10 ^ n) ⟨j, by rw [pow_zero, mul_one, places]⟩
      (fun same => differ (by rw [← same, mul_div_cancel_right₀ p scale.ne']))
      (by rw [← back, off, off, level])
    rw [abs_mul, abs_of_pos scale, ← lt_div_iff₀ scale] at further
    rwa [abs_div, abs_of_pos scale]

/-- The double of a natural number that is one is the number. -/
theorem value_toFloat_natCast {n : Nat} (double : Binary64.IsDouble n) :
    (Binary64.ofFloat (toFloat n)).value? = some (n : Rat) := by
  have num : ((n : Rat).num.natAbs : Rat) < Binary64.overflow := by simpa using double.lt_overflow
  obtain ⟨m, e, rounds, finite, made⟩ := toFloat_roundsTo num (.inl rfl)
  obtain ⟨m', e', rounds', same⟩ := double.roundsTo
  rw [Nat.abs_cast] at rounds
  obtain ⟨rfl, rfl⟩ := rounds.unique rounds'
  have nonneg : ¬(n : Rat) < 0 := (Nat.cast_nonneg n).not_gt
  rw [made, Binary64.value_make finite, same, decide_eq_false nonneg]
  rfl

end

end Exact

namespace Operation

theorem roundExact_nearest (q : Rat) (n : Nat) : Exact.Nearest n q (roundExact q n) := by
  have scale : Decimal.tenTo n = (10 : Rat) ^ n := zpow_natCast 10 n
  rw [roundExact, scale]
  exact (Exact.round_nearest _).unscale

/-- A value that asks for `n` decimals: a plain or an exact number that is `n`, or the truth value
that stands for it. -/
inductive Asks : Value → Nat → Prop
  | number {n : Nat} : (Binary64.ofFloat x).value? = some (n : Rat) → Asks (.number x) n
  | exact (n : Nat) : Asks (.exact n) n
  | boolean (b : Bool) : Asks (.boolean b) b.toNat

section

variable {d : Value} {x : Float} {n : Nat}

theorem Asks.leaf (asks : Asks d n) : d.isArray = false := by
  cases asks <;> rfl

/-- Up to fifteen, the double of what is asked for is the number itself. -/
theorem Asks.real (asks : Asks d n) (small : n ≤ 15) :
    ∃ x, d.real? = some x ∧ (Binary64.ofFloat x).value? = some (n : Rat) := by
  cases asks with
  | number value => exact ⟨_, rfl, value⟩
  | exact n =>
    exact ⟨_, rfl, Exact.value_toFloat_natCast (Binary64.isDouble_of_lt (by omega))⟩
  | boolean b => cases b <;> exact ⟨_, rfl, by decide +kernel⟩

theorem places?_of_value (real : d.real? = some x)
    (value : (Binary64.ofFloat x).value? = some (n : Rat)) (small : n ≤ 15) :
    places? d = some n := by
  have integer : Binary64.safeInteger? x = some (n : Int) := by
    have safe : n ≤ Binary64.maxSafeInteger := small.trans (by decide)
    exact Option.filter_eq_some_iff.mpr
      ⟨Binary64.integer?_eq_some.mpr value, decide_eq_true safe⟩
  have range : (0 : Int) ≤ n ∧ (n : Int) ≤ maxPlaces :=
    ⟨Int.natCast_nonneg n, by exact_mod_cast small⟩
  rw [places?, real, Option.bind_some, integer]
  exact if_pos range

theorem Asks.places? (asks : Asks d n) (small : n ≤ 15) : places? d = some n := by
  obtain ⟨x, real, value⟩ := asks.real small
  exact places?_of_value real value small

theorem places?_eq_none
    (none : ∀ n : Nat, n ≤ 15 → (Binary64.ofFloat x).value? ≠ some (n : Rat)) :
    Operation.places? (.number x) = .none := by
  have real : (Value.number x).real? = some x := rfl
  rw [Operation.places?, real, Option.bind_some]
  split
  · rename_i i found
    refine if_neg fun range => ?_
    obtain ⟨n, rfl⟩ := Int.eq_ofNat_of_zero_le range.1
    have value := Binary64.integer?_eq_some.mp (Option.filter_eq_some_iff.mp found).1
    exact none n (by exact_mod_cast range.2) value
  · rfl

theorem round_asks (s : Settings) (r : Rat) (asks : Asks d n) (small : n ≤ 15) :
    round.call s [.exact r, d] = .ok (.exact (roundExact r n)) := by
  have run : round.call s [.exact r, d] = roundTo (.exact r) d := Value.combine_leaves rfl asks.leaf
  rw [run, roundTo, asks.places? small]
  rfl

end

/-- Rounding of an exact number to at most fifteen decimals gives the nearest number with so many,
the one further from zero of two. More decimals leave it as it is, and rounding is odd and monotone.
A plain number that is none of the integers from zero to fifteen is refused whatever is rounded. -/
theorem round_decimals (s : Settings) (r : Rat) :
    (∀ d n, Asks d n → n ≤ 15 → ∃ q, round.call s [.exact r, d] = .ok (.exact q) ∧
      Exact.Nearest n r q ∧
      (∀ d' m, Asks d' m → n ≤ m → m ≤ 15 → round.call s [.exact q, d'] = .ok (.exact q)) ∧
      round.call s [.exact (-r), d] = .ok (.exact (-q)) ∧
      ∀ t, r ≤ t → ∃ p, round.call s [.exact t, d] = .ok (.exact p) ∧ q ≤ p) ∧
    ∀ x, (∀ n : Nat, n ≤ 15 → (Binary64.ofFloat x).value? ≠ some (n : Rat)) →
      round.call s [.exact r, .number x] = .error (.invalid "round" .decimals) := by
  refine ⟨fun d n asks small => ?_, fun x none => ?_⟩
  · have nearest := roundExact_nearest r n
    refine ⟨_, round_asks s r asks small, nearest, fun d' m asks' more small' => ?_, ?_,
      fun t below => ⟨_, round_asks s t asks small, nearest.mono (roundExact_nearest t n) below⟩⟩
    · have same := (roundExact_nearest _ m).unique (nearest.places.mono more).nearest
      rw [round_asks s _ asks' small', same]
    · have odd := (roundExact_nearest (-r) n).unique nearest.neg
      rw [round_asks s (-r) asks small, odd]
  · have run : round.call s [.exact r, .number x] = roundTo (.exact r) (.number x) := rfl
    rw [run, roundTo, places?_eq_none none]
    rfl

/-- Minus an eighth lies halfway between two numbers with two decimals, and half a decimal is no
number of them. -/
theorem round_decimals_halves :
    let eighth : Value := .exact (-1 / 8)
    let half := Float.ofBits 0x3FE0000000000000
    (Asks (.exact (2 : Nat)) 2 ∧
      round.call {} [eighth, .exact (2 : Nat)] = .ok (.exact (-13 / 100)) ∧
      Exact.Nearest 2 (-1 / 8) (-13 / 100)) ∧
    (∀ n : Nat, n ≤ 15 → (Binary64.ofFloat half).value? ≠ some (n : Rat)) ∧
      round.call {} [eighth, .number half] = .error (.invalid "round" .decimals) := by
  intro eighth half
  obtain ⟨rounds, refused⟩ := round_decimals {} (-1 / 8)
  obtain ⟨q, made, nearest, -⟩ := rounds (.exact (2 : Nat)) 2 (.exact 2) (by decide)
  have value : round.call {} [eighth, .exact (2 : Nat)] = .ok (.exact (-13 / 100)) := by
    have tie : roundExact (-1 / 8) 2 = -13 / 100 := by decide +kernel
    rw [round_asks {} (-1 / 8) (.exact 2) (by decide), tie]
  obtain rfl : q = -13 / 100 := by simpa using made.symm.trans value
  have fraction (n : Nat) : (Binary64.ofFloat half).value? ≠ some (n : Rat) := by
    have value : (Binary64.ofFloat half).value? = some (1 / 2) := by decide +kernel
    rw [value]
    intro same
    have twice : (1 : Rat) = 2 * n := by linarith [Option.some.inj same]
    have twice : 1 = 2 * n := by exact_mod_cast twice
    omega
  exact ⟨⟨.exact 2, value, nearest⟩, fun n _ => fraction n, refused half fun n _ => fraction n⟩

end Operation
end Reckon
