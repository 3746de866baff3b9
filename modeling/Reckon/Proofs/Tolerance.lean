import Reckon.Proofs.Binary64.Difference
import Reckon.Tolerance

/-! The orders of doubles. Two numbers that are not nearly equal are ordered by their places on the
line; whether they are nearly equal does not depend on which one comes first. -/
namespace Reckon.Tolerance

open Binary64

section

variable {x y : Float}

theorem order?_eq (x y : Float) : order? x y =
    (ofFloat x).place?.bind fun a => (ofFloat y).place?.map fun b => cmp a b := by
  cases hx : (ofFloat x).place? with
  | none => simp [order?, lt_iff, beq_iff, hx]
  | some a =>
    cases hy : (ofFloat y).place? with
    | none => simp [order?, lt_iff, beq_iff, hx, hy]
    | some b =>
      have less : x < y ↔ a < b := by simp [lt_iff, hx, hy]
      have equal : (x == y) = true ↔ b = a := by simp [beq_iff, hx, hy]
      have greater : y < x ↔ b < a := by simp [lt_iff, hx, hy]
      simp only [order?, less, equal, greater, Option.bind_some, Option.map_some]
      rcases lt_trichotomy a b with before | rfl | behind
      · rw [if_pos before, before.cmp_eq_lt]
      · simp
      · rw [if_neg behind.not_gt, if_neg behind.ne, if_pos behind, behind.cmp_eq_gt]

theorem order?_swap (x y : Float) : order? y x = (order? x y).map Ordering.swap := by
  rw [order?_eq, order?_eq]
  cases (ofFloat x).place? <;> cases (ofFloat y).place? <;> simp

theorem order?_eq_none : order? x y = none ↔ x.isNaN = true ∨ y.isNaN = true := by
  rw [isNaN_iff, isNaN_iff, order?_eq]
  cases (ofFloat x).place? <;> simp

theorem order?_eq_some_eq : order? x y = some .eq ↔ (x == y) = true := by
  rw [beq_iff, order?_eq]
  cases (ofFloat x).place? <;> cases (ofFloat y).place? <;> simp
  exact eq_comm

/-- Where a double stands when what is no number comes after every number. -/
def rank (x : Float) : WithTop (WithBot (WithTop Rat)) := (ofFloat x).place?.elim ⊤ (↑)

theorem rank_of_place (h : (ofFloat x).place? = some a) : rank x = a := by rw [rank, h]; rfl

theorem rank_nan (h : (ofFloat x).place? = none) : rank x = ⊤ := by rw [rank, h]; rfl

theorem totalOrder_eq (x y : Float) : totalOrder x y = cmp (rank x) (rank y) := by
  simp only [totalOrder, isNaN_iff, order?_eq, rank]
  cases (ofFloat x).place? with
  | none =>
    cases (ofFloat y).place? with
    | none => simp
    | some b => exact (WithTop.coe_lt_top b).cmp_eq_gt.symm
  | some a =>
    cases (ofFloat y).place? with
    | none => exact (WithTop.coe_lt_top a).cmp_eq_lt.symm
    | some b => simp [cmp, cmpUsing]

theorem totalOrder_of_order (h : order? x y = some c) : totalOrder x y = c := by
  have numbers : ¬(x.isNaN = true ∨ y.isNaN = true) := by
    rw [← order?_eq_none, h]
    nofun
  rw [not_or] at numbers
  rw [totalOrder, if_neg numbers.1, if_neg numbers.2, h, Option.getD_some]

end

/-! ## Nearly equal numbers -/

section

variable {x y : Float}

theorem place_machineEpsilon :
    (ofFloat machineEpsilon).place? = some (onLine (2 ^ (-52 : Int))) := by
  have bits : ofFloat machineEpsilon = .finite false (2 ^ 52) (-104) := rfl
  rw [bits, place?, magnitude]
  norm_num [zpow_neg]

/-- Of two numbers the larger one is taken. -/
theorem larger_places (hx : (ofFloat x).place? = some a) (hy : (ofFloat y).place? = some b) :
    (ofFloat (larger x y)).place? = some (max a b) := by
  have less : x < y ↔ a < b := by simp [lt_iff, hx, hy]
  rw [larger, isNaN_of_place hx, isNaN_of_place hy, if_neg Bool.false_ne_true,
    if_neg Bool.false_ne_true]
  split_ifs with before
  · rw [hy, max_eq_right (less.mp before).le]
  · rw [hx, max_eq_left (not_lt.mp (mt less.mpr before))]

/-- What is no number is passed over. -/
theorem larger_nan (hx : (ofFloat x).place? = some a) (hy : (ofFloat y).place? = none) :
    larger x y = x := by
  rw [larger, isNaN_of_place hx, isNaN_iff.mpr hy, if_neg Bool.false_ne_true, if_pos rfl]

theorem nearlyEqual_nan (h : x.isNaN = true ∨ y.isNaN = true) (ε : Float) :
    nearlyEqual x y ε = false := by
  have none : (x.isNaN || y.isNaN) = true := by simpa using h
  rw [nearlyEqual, none, if_pos rfl]

theorem larger_or (x y : Float) : larger x y = x ∨ larger x y = y := by
  unfold larger
  split_ifs <;> simp

theorem larger_abs (hx : (ofFloat x).value? = some a) (hy : (ofFloat y).value? = some b) :
    ∃ m e, ofFloat (larger x.abs y.abs) = .finite false m e ∧ magnitude m e = max |a| |b| := by
  have place := larger_places (place?_of_value (value_abs hx)) (place?_of_value (value_abs hy))
  have positive {z : Float} {c} (hz : (ofFloat z).value? = some c) :
      ∃ m e, ofFloat z.abs = .finite false m e := by
    match same : ofFloat z, hz with
    | .finite s m e, _ => exact ⟨m, e, ofFloat_abs_finite same⟩
  obtain ⟨m, e, finite⟩ : ∃ m e, ofFloat (larger x.abs y.abs) = .finite false m e := by
    rcases larger_or x.abs y.abs with same | same <;> rw [same]
    · exact positive hx
    · exact positive hy
  refine ⟨m, e, finite, ?_⟩
  rw [finite] at place
  have size : onLine (magnitude m e) = max (onLine |a|) (onLine |b|) := Option.some.inj place
  rwa [← onLine_max, onLine_inj] at size

theorem larger_abs_comm (hx : (ofFloat x).value? = some a) (hy : (ofFloat y).value? = some b) :
    larger x.abs y.abs = larger y.abs x.abs := by
  have px := place?_of_value (value_abs hx)
  have py := place?_of_value (value_abs hy)
  have less : x.abs < y.abs ↔ |a| < |b| := by simp [lt_iff, px, py]
  have greater : y.abs < x.abs ↔ |b| < |a| := by simp [lt_iff, px, py]
  simp only [larger, isNaN_of_place px, isNaN_of_place py, if_neg Bool.false_ne_true, less, greater]
  rcases lt_trichotomy |a| |b| with before | same | behind
  · rw [if_pos before, if_neg before.not_gt]
  · rw [if_neg same.not_lt, if_neg same.not_gt, abs_inj hx hy same]
  · rw [if_neg behind.not_gt, if_pos behind]

theorem nearlyEqual_finite (hx : (ofFloat x).value? = some a) (hy : (ofFloat y).value? = some b)
    (ε : Float) : nearlyEqual x y ε =
      decide ((x - y).abs ≤ larger machineEpsilon (ε * larger x.abs y.abs)) := by
  rw [nearlyEqual, isNaN_of_place (place?_of_value hx), isNaN_of_place (place?_of_value hy),
    isFinite_iff.mpr ⟨a, hx⟩, isFinite_iff.mpr ⟨b, hy⟩]
  rfl

/-- The tolerance is one for finite doubles. -/
theorem nearlyEqual_infinite (h : x.isFinite = false ∨ y.isFinite = false) (ε : Float) :
    nearlyEqual x y ε = (x == y) := by
  have infinite : (!x.isFinite || !y.isFinite) = true := by simpa using h
  rw [nearlyEqual, if_pos infinite]
  split_ifs with nan
  · rw [Bool.or_eq_true, ← order?_eq_none] at nan
    rw [eq_comm, Bool.eq_false_iff, Ne, ← order?_eq_some_eq, nan]
    nofun
  · rfl

theorem nearlyEqual_comm (x y ε : Float) : nearlyEqual x y ε = nearlyEqual y x ε := by
  cases hx : x.isFinite with
  | false => rw [nearlyEqual_infinite (.inl hx), nearlyEqual_infinite (.inr hx), BEq.comm]
  | true =>
    cases hy : y.isFinite with
    | false => rw [nearlyEqual_infinite (.inr hy), nearlyEqual_infinite (.inl hy), BEq.comm]
    | true =>
      obtain ⟨a, hx⟩ := isFinite_iff.mp hx
      obtain ⟨b, hy⟩ := isFinite_iff.mp hy
      rw [nearlyEqual_finite hx hy, nearlyEqual_finite hy hx, distance_comm hx hy,
        larger_abs_comm hx hy]

/-- No tolerance is below the machine epsilon. -/
theorem machineEpsilon_le_larger (z : Float) :
    ∃ t, (ofFloat (larger machineEpsilon z)).place? = some t ∧ onLine (2 ^ (-52 : Int)) ≤ t := by
  cases hz : (ofFloat z).place? with
  | none => exact ⟨_, (larger_nan place_machineEpsilon hz).symm ▸ place_machineEpsilon, le_rfl⟩
  | some b => exact ⟨_, larger_places place_machineEpsilon hz, le_max_left _ _⟩

/-- Doubles in one place are nearly equal under every tolerance. -/
theorem nearlyEqual_of_beq (h : (x == y) = true) (ε : Float) : nearlyEqual x y ε = true := by
  cases finite : y.isFinite with
  | false => rw [nearlyEqual_infinite (.inr finite), h]
  | true =>
    obtain ⟨v, hy⟩ := isFinite_iff.mp finite
    have hx := (beq_iff_value hy).mp h
    obtain ⟨s, m, e, rounds, difference⟩ := ofFloat_sub hx hy
    rw [sub_self, abs_zero] at rounds
    obtain rfl := rounds.eq_zero_iff.mpr (by positivity)
    obtain ⟨t, bound, positive⟩ := machineEpsilon_le_larger (ε * larger x.abs y.abs)
    rw [nearlyEqual_finite hx hy, decide_eq_true_iff, le_iff]
    refine ⟨onLine 0, t, ?_, bound, le_trans ?_ positive⟩
    · rw [ofFloat_abs_make difference, make_zero, place?, magnitude_zero]
      rfl
    · rw [onLine_le]
      positivity

theorem tolerantOrder?_eq_none {ε : Float} :
    tolerantOrder? x y ε = none ↔ x.isNaN = true ∨ y.isNaN = true := by
  rw [← order?_eq_none, tolerantOrder?]
  split_ifs with near
  · refine ⟨nofun, fun none => ?_⟩
    rw [nearlyEqual_nan (order?_eq_none.mp none)] at near
    cases near
  · rfl

theorem nearlyEqual_eq (x y ε : Float) :
    nearlyEqual x y ε = (tolerantOrder? x y ε == some .eq) := by
  rw [tolerantOrder?]
  split_ifs with near
  · exact near
  · rw [Bool.not_eq_true] at near
    rw [near, eq_comm, beq_eq_false_iff_ne, Ne, order?_eq_some_eq]
    intro same
    cases near.symm.trans (nearlyEqual_of_beq same ε)

theorem tolerantOrder?_swap (x y ε : Float) :
    tolerantOrder? y x ε = (tolerantOrder? x y ε).map Ordering.swap := by
  rw [tolerantOrder?, tolerantOrder?, nearlyEqual_comm y x, order?_swap x y]
  split_ifs <;> rfl

def sortOrder (x y ε : Float) : Ordering := if nearlyEqual x y ε then .eq else totalOrder x y

theorem sortOrder_of_tolerant {ε : Float} (h : tolerantOrder? x y ε = some c) :
    sortOrder x y ε = c := by
  rw [tolerantOrder?] at h
  rw [sortOrder]
  split_ifs at h ⊢ with near
  · exact Option.some.inj h
  · exact totalOrder_of_order h

theorem tolerantOrder?_eq_none_or (x y ε : Float) :
    tolerantOrder? x y ε = none ∨ tolerantOrder? x y ε = some (sortOrder x y ε) := by
  cases order : tolerantOrder? x y ε with
  | none => exact .inl rfl
  | some c => exact .inr (by rw [sortOrder_of_tolerant order])

theorem sortOrder_swap (x y ε : Float) : sortOrder y x ε = (sortOrder x y ε).swap := by
  rw [sortOrder, sortOrder, nearlyEqual_comm y x, totalOrder_eq, totalOrder_eq, ← cmp_swap]
  split_ifs <;> rfl

end

end Reckon.Tolerance
