import Reckon.Operation.Binary
import Reckon.Proofs.Tolerance

/-! Sorting by `compare`. Numbers that differ by the tolerance count as equal, and so does whatever
lies between them: rounding the distance and the tolerance cannot part them, as the spacing of the
doubles is wider than both errors. So one step up or down is never lost, while many equal steps add
up to a difference. -/
namespace Reckon

namespace Tolerance

open Binary64

section

variable {x y z ε : Float}

/-- Finite numbers are nearly equal if their rounded distance is at most the rounded tolerance. -/
theorem nearlyEqual_spec (tolerance : ofFloat ε = .finite false k l) (full : 2 ^ 52 ≤ k)
    (small : magnitude k l ≤ 1) (hx : (ofFloat x).value? = some a)
    (hy : (ofFloat y).value? = some b) :
    ∃ m e m' e', RoundsTo |a - b| m e ∧ RoundsTo (magnitude k l * max |a| |b|) m' e' ∧
      (nearlyEqual x y ε = true ↔ magnitude m e ≤ max (2 ^ (-52 : Int)) (magnitude m' e')) := by
  obtain ⟨s, m, e, rounds, difference⟩ := ofFloat_sub hx hy
  obtain ⟨m₂, e₂, size, same⟩ := larger_abs hx hy
  obtain ⟨m', e', rounds', product⟩ := ofFloat_mul tolerance full size
  rw [same] at rounds'
  refine ⟨m, e, m', e', rounds, rounds', ?_⟩
  have finite : magnitude k l * max |a| |b| < overflow := by
    obtain ⟨_, _, -, -, boundx⟩ := size_of_value hx
    obtain ⟨_, _, -, -, boundy⟩ := size_of_value hy
    exact (mul_le_of_le_one_left (le_max_of_le_left (abs_nonneg a)) small).trans_lt
      (max_lt boundx boundy)
  have place : (ofFloat (ε * larger x.abs y.abs)).place? = some (onLine (magnitude m' e')) := by
    rw [product]
    exact place?_of_value (value_make (rounds'.finite_iff.mpr finite) false)
  have bound : max (2 ^ (-52 : Int)) (magnitude m' e') < overflow :=
    max_lt ((zpow_le_one_of_nonpos₀ (by norm_num) (by decide)).trans_lt one_lt_overflow)
      (rounds'.magnitude_lt_overflow finite)
  obtain ⟨p, distance, less⟩ := place_make_le rounds.grid bound
  rw [← ofFloat_abs_make difference] at distance
  have tolerance := larger_places place_machineEpsilon place
  rw [← onLine_max] at tolerance
  rw [nearlyEqual_finite hx hy, decide_eq_true_iff, le_iff, ← less, distance, tolerance]
  simp

/-- Where `b` lies between `c` and a larger `a`, it is nearer to `c` than `a` is by the spacing of
the doubles, which outweighs that its tolerance is smaller and that two numbers `n` were rounded. -/
theorem narrower {ε a b c : Rat} (small : ε ≤ 1 / 16)
    (ga : OnGrid ma ea) (sa : |a| = magnitude ma ea) (gb : OnGrid mb eb)
    (sb : |b| = magnitude mb eb) (less : |b| < |a|) (between : |a - b| + |b - c| = |a - c|)
    (far : |a - c| ≤ n + n / 2 ^ 53) (bound : n - n / 2 ^ 53 ≤ ε * |a|) : |b - c| ≤ ε * |b| := by
  -- The spacing of the doubles around `b`.
  have next : |b| / 2 ^ 53 ≤ |a| - |b| := by
    rw [sa, sb] at less ⊢
    exact gb.spacing ga less
  have split : ε * |a| = ε * |b| + ε * (|a| - |b|) := by ring
  have part : ε * (|a| - |b|) ≤ 1 / 16 * (|a| - |b|) :=
    mul_le_mul_of_nonneg_right small (sub_nonneg.mpr less.le)
  have part' : ε * |b| ≤ 1 / 16 * |b| := mul_le_mul_of_nonneg_right small (abs_nonneg b)
  have triangle : |a| - |b| ≤ |a - b| := abs_sub_abs_le_abs_sub a b
  have nonneg' : 0 ≤ |b| := abs_nonneg b
  linarith

/-- Rounding leaves what is closer to `c` than `a` within the tolerance that `a` is within. -/
theorem rounded_between {ε a b c : Rat} (nonneg : 0 ≤ ε) (small : ε ≤ 1 / 16)
    (ga : OnGrid ma ea) (sa : |a| = magnitude ma ea) (gb : OnGrid mb eb)
    (sb : |b| = magnitude mb eb) (between : |a - b| + |b - c| = |a - c|)
    (distance : RoundsTo |a - c| m e) (allowed : RoundsTo (ε * max |a| |c|) m' e')
    (distance' : RoundsTo |b - c| n f) (allowed' : RoundsTo (ε * max |b| |c|) n' f')
    (large : 2 ^ (-52 : Int) ≤ magnitude m e) (near : magnitude m e ≤ magnitude m' e') :
    magnitude n f ≤ magnitude n' f' := by
  rcases le_or_gt (max |a| |c|) (max |b| |c|) with wide | narrow
  · -- The tolerance of the inner pair is no smaller.
    have closer : |b - c| ≤ |a - c| :=
      (le_add_of_nonneg_left (abs_nonneg (a - b))).trans_eq between
    calc magnitude n f ≤ magnitude m e := distance'.mono distance closer
      _ ≤ magnitude m' e' := near
      _ ≤ magnitude n' f' := allowed.mono allowed' (mul_le_mul_of_nonneg_left wide nonneg)
  · have insidec : |c| < |a| :=
      (lt_max_iff.mp ((le_max_right |b| |c|).trans_lt narrow)).resolve_right (lt_irrefl _)
    rw [max_eq_left insidec.le] at narrow allowed
    have insideb : |b| < |a| := (le_max_left |b| |c|).trans_lt narrow
    have error := abs_le.mp (distance.relative_error_of_le large)
    have error' := abs_le.mp (allowed.relative_error_of_le (large.trans near))
    have inside : |b - c| ≤ ε * |b| := by
      refine narrower small ga sa gb sb insideb between (n := magnitude m' e') ?_ ?_
      · linarith [error.1]
      · linarith [error'.2]
    exact distance'.mono allowed'
      (inside.trans (mul_le_mul_of_nonneg_left (le_max_left |b| |c|) nonneg))

/-- What lies between two nearly equal numbers is nearly equal to both. -/
theorem nearlyEqual_between (tolerance : ofFloat ε = .finite false k l) (full : 2 ^ 52 ≤ k)
    (small : magnitude k l ≤ 1 / 16) (hx : (ofFloat x).value? = some a)
    (hy : (ofFloat y).value? = some b) (hz : (ofFloat z).value? = some c)
    (between : |a - b| + |b - c| = |a - c|) (near : nearlyEqual x z ε = true) :
    nearlyEqual y z ε = true := by
  have small' : magnitude k l ≤ 1 := small.trans (by norm_num)
  obtain ⟨m, e, m', e', distance, allowed, spec⟩ := nearlyEqual_spec tolerance full small' hx hz
  obtain ⟨n, f, n', f', distance', allowed', spec'⟩ := nearlyEqual_spec tolerance full small' hy hz
  rw [spec] at near
  rw [spec']
  rcases le_or_gt (magnitude m e) (2 ^ (-52 : Int)) with tiny | large
  · have closer : |b - c| ≤ |a - c| :=
      (le_add_of_nonneg_left (abs_nonneg (a - b))).trans_eq between
    exact le_max_of_le_left ((distance'.mono distance closer).trans tiny)
  · have near := (le_max_iff.mp near).resolve_left large.not_ge
    obtain ⟨_, _, ga, sa, -⟩ := size_of_value hx
    obtain ⟨_, _, gb, sb, -⟩ := size_of_value hy
    exact le_max_of_le_right (rounded_between (magnitude_nonneg k l) small ga sa gb sb between
      distance allowed distance' allowed' large.le near)

end

section

variable {x y z ε : Float}

/-- Numbers between finite ones are finite. -/
theorem value_between (hx : (ofFloat x).value? = some a) (hz : (ofFloat z).value? = some c)
    (before : rank x ≤ rank y) (behind : rank y ≤ rank z) :
    ∃ b, (ofFloat y).value? = some b ∧ a ≤ b ∧ b ≤ c := by
  rw [rank_of_place (place?_of_value hx)] at before
  rw [rank_of_place (place?_of_value hz)] at behind
  match same : ofFloat y with
  | .nan =>
    rw [rank_nan (by rw [same, place?])] at behind
    simp at behind
  | .infinite s =>
    rw [rank_of_place (by rw [same, place?])] at before behind
    cases s <;> simp [onLine] at before behind
  | .finite s m e =>
    have hy : (ofFloat y).value? = some (if s then -magnitude m e else magnitude m e) := by
      rw [same, value?]
    rw [rank_of_place (place?_of_value hy)] at before behind
    exact ⟨_, rfl, by simpa using before, by simpa using behind⟩

/-- Nearly equal doubles that are not in one place are finite. -/
theorem finite_of_near (near : nearlyEqual x y ε = true) (apart : rank x < rank y) :
    (∃ a, (ofFloat x).value? = some a) ∧ ∃ b, (ofFloat y).value? = some b := by
  rw [← isFinite_iff, ← isFinite_iff]
  by_contra infinite
  rw [not_and_or, Bool.not_eq_true, Bool.not_eq_true] at infinite
  rw [nearlyEqual_infinite infinite, beq_iff] at near
  obtain ⟨p, hx, hy⟩ := near
  rw [rank_of_place hx, rank_of_place hy] at apart
  exact lt_irrefl _ apart

def Small (ε : Float) : Prop :=
  ∃ k l, ofFloat ε = .finite false k l ∧ 2 ^ 52 ≤ k ∧ magnitude k l ≤ 1 / 16

theorem near_between (tolerance : Small ε) (lower : rank x < rank y) (upper : rank y < rank z)
    (near : nearlyEqual x z ε = true) : nearlyEqual x y ε = true ∧ nearlyEqual y z ε = true := by
  obtain ⟨k, l, same, full, small⟩ := tolerance
  obtain ⟨⟨a, hx⟩, c, hz⟩ := finite_of_near near (lower.trans upper)
  obtain ⟨b, hy, le, le'⟩ := value_between hx hz lower.le upper.le
  have below : |a - b| = b - a := by rw [abs_sub_comm, abs_of_nonneg (sub_nonneg.mpr le)]
  have above : |b - c| = c - b := by rw [abs_sub_comm, abs_of_nonneg (sub_nonneg.mpr le')]
  have whole : |a - c| = c - a := by
    rw [abs_sub_comm, abs_of_nonneg (sub_nonneg.mpr (le.trans le'))]
  have near' : nearlyEqual z x ε = true := nearlyEqual_comm x z ε ▸ near
  constructor
  · rw [nearlyEqual_comm]
    refine nearlyEqual_between same full small hz hy hx ?_ near'
    rw [abs_sub_comm c b, abs_sub_comm b a, abs_sub_comm c a, below, above, whole]
    ring
  · refine nearlyEqual_between same full small hx hy hz ?_ near
    rw [below, above, whole]
    ring

theorem sortOrder_self (x ε : Float) : sortOrder x x ε = .eq := by
  rw [sortOrder, totalOrder_eq, cmp_self_eq_eq, ite_self]

theorem sortOrder_eq_lt :
    sortOrder x y ε = .lt ↔ ¬nearlyEqual x y ε = true ∧ rank x < rank y := by
  rw [sortOrder, totalOrder_eq]
  split_ifs with near <;> simp [near]

theorem sortOrder_eq_gt :
    sortOrder x y ε = .gt ↔ ¬nearlyEqual x y ε = true ∧ rank y < rank x := by
  rw [sortOrder, totalOrder_eq]
  split_ifs with near <;> simp [near]

/-- Two steps of which neither goes down and one goes up do not lead down. -/
theorem sortOrder_trans (tolerance : Small ε) (first : sortOrder x y ε ≠ .gt)
    (second : sortOrder y z ε ≠ .gt) (up : sortOrder x y ε = .lt ∨ sortOrder y z ε = .lt) :
    sortOrder x z ε ≠ .gt := by
  intro down
  rw [Ne, sortOrder_eq_gt, not_and'] at first second
  rw [sortOrder_eq_lt, sortOrder_eq_lt] at up
  obtain ⟨-, down⟩ := sortOrder_eq_gt.mp down
  rcases up with ⟨apart, less⟩ | ⟨apart, less⟩
  · have near := not_not.mp (second (down.trans less))
    rw [nearlyEqual_comm] at near
    exact apart (near_between tolerance down less near).2
  · have near := not_not.mp (first (less.trans down))
    rw [nearlyEqual_comm] at near
    exact apart (near_between tolerance less down near).1

theorem small_default : Small ({} : Settings).epsilon := by
  have bits : ofFloat ({} : Settings).epsilon = .finite false 6338253001141147 (-99) := by
    decide +kernel
  refine ⟨_, _, bits, by decide, ?_⟩
  norm_num [magnitude, zpow_neg]

end

end Tolerance

namespace Rule

open Tolerance (sortOrder)

theorem compare_numbers (x y : Float) (s : Settings) :
    Rule.compare.apply s (.number x) (.number y) = .ok (sign (sortOrder x y s.epsilon)) := rfl

def plainOrder (x y : Float) : Ordering := sortOrder x y ({} : Settings).epsilon

/-- Plain numbers are sorted by `compare` up to its tolerance: the answer is reversed with the
operands, every number equals itself, and two steps of which neither goes down and one goes up do
not lead down. -/
theorem compare_sorts (x y z : Float) :
    Rule.compare.apply {} (.number x) (.number y) = .ok (sign (plainOrder x y)) ∧
    plainOrder y x = (plainOrder x y).swap ∧ plainOrder x x = .eq ∧
    (plainOrder x y ≠ .gt → plainOrder y z ≠ .gt →
      plainOrder x y = .lt ∨ plainOrder y z = .lt → plainOrder x z ≠ .gt) :=
  ⟨compare_numbers x y {}, Tolerance.sortOrder_swap x y _, Tolerance.sortOrder_self x _,
    Tolerance.sortOrder_trans Tolerance.small_default⟩

/-- One level step and one up. -/
theorem compare_sorts_up : plainOrder 1 1.0000000000000075 ≠ .gt ∧
    plainOrder 1.0000000000000075 2 = .lt ∧ plainOrder 1 2 ≠ .gt := by
  have level : plainOrder 1 1.0000000000000075 = .eq := by decide +kernel
  have up : plainOrder 1.0000000000000075 2 = .lt := by decide +kernel
  have first : plainOrder 1 1.0000000000000075 ≠ .gt := by rw [level]; nofun
  have second : plainOrder 1.0000000000000075 2 ≠ .gt := by rw [up]; nofun
  exact ⟨first, up, (compare_sorts 1 1.0000000000000075 2).2.2.2 first second (.inr up)⟩

/-- Two level steps add up to a step down. -/
theorem compare_intransitive :
    Rule.compare.apply {} (.number 1.000000000000015) (.number 1.0000000000000075) =
      .ok (.number 0) ∧
    Rule.compare.apply {} (.number 1.0000000000000075) (.number 1) = .ok (.number 0) ∧
    Rule.compare.apply {} (.number 1.000000000000015) (.number 1) = .ok (.number 1) := by
  have first : sortOrder 1.000000000000015 1.0000000000000075 ({} : Settings).epsilon = .eq := by
    decide +kernel
  have second : sortOrder 1.0000000000000075 1 ({} : Settings).epsilon = .eq := by decide +kernel
  have whole : sortOrder 1.000000000000015 1 ({} : Settings).epsilon = .gt := by decide +kernel
  rw [compare_numbers, compare_numbers, compare_numbers, first, second, whole]
  exact ⟨rfl, rfl, rfl⟩

end Rule
end Reckon
