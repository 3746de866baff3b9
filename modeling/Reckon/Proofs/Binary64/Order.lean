import Reckon.Proofs.Binary64.Arithmetic
import Mathlib.Order.Compare
import Mathlib.Order.WithBot

/-! Doubles that are numbers stand on a line with the two infinities at its ends. Their comparisons
are those of their places, with the zeros of both signs in one place. -/
namespace Reckon.Binary64

open Float.Model.UnpackedFloat

def onLine (v : Rat) : WithBot (WithTop Rat) := ((v : WithTop Rat) : WithBot (WithTop Rat))

/-- Where a double stands among the rational numbers and the two infinities. -/
def place? : Binary64 → Option (WithBot (WithTop Rat))
  | nan => none
  | infinite negative => some (if negative then ⊥ else ⊤)
  | finite negative m e => some (onLine (if negative then -magnitude m e else magnitude m e))

@[simp]
theorem onLine_lt {v w : Rat} : onLine v < onLine w ↔ v < w := by simp [onLine]

@[simp]
theorem onLine_le {v w : Rat} : onLine v ≤ onLine w ↔ v ≤ w := by simp [onLine]

@[simp]
theorem onLine_inj {v w : Rat} : onLine v = onLine w ↔ v = w := by simp [onLine]

theorem onLine_max (v w : Rat) : onLine (max v w) = max (onLine v) (onLine w) := by simp [onLine]

theorem cmp_onLine (v w : Rat) : cmp (onLine v) (onLine w) = cmp v w := by simp [cmp, cmpUsing]

/-- Mantissas are compared under equal exponents. -/
theorem OnGrid.cmp_magnitude (h : OnGrid m e) (h' : OnGrid m' e') :
    (compare e e').then (compare m m') = cmp (magnitude m e) (magnitude m' e') := by
  have less {m e m' e'} (h : OnGrid m e) (h' : OnGrid m' e') (before : Before m e m' e') :
      magnitude m e < magnitude m' e' := by
    have next := (succ_le_of_before h h' before).1
    have unit : (0 : Rat) < 2 ^ e := by positivity
    linarith
  rcases before_or_eq m e m' e' with before | ⟨rfl, rfl⟩ | behind
  · rw [(cmp_eq_lt_iff ..).mpr (less h h' before)]
    rcases before with exponent | ⟨rfl, mantissa⟩
    · rw [Int.compare_eq_lt.mpr exponent]
      rfl
    · simp [Nat.compare_eq_lt.mpr mantissa]
  · simp
  · rw [(cmp_eq_gt_iff ..).mpr (less h' h behind)]
    rcases behind with exponent | ⟨rfl, mantissa⟩
    · rw [Int.compare_eq_gt.mpr exponent]
      rfl
    · simp [Nat.compare_eq_gt.mpr mantissa]

theorem compare_unpacked (h : OnGrid m e) (h' : OnGrid m' e') (s t : Bool) :
    (unpacked (signOf s) m e).compare (unpacked (signOf t) m' e') =
      some (cmp (if s then -magnitude m e else magnitude m e)
        (if t then -magnitude m' e' else magnitude m' e')) := by
  have order := h.cmp_magnitude h'
  rcases Nat.eq_zero_or_pos m with rfl | positive <;>
    rcases Nat.eq_zero_or_pos m' with rfl | positive'
  · cases s <;> cases t <;>
      simp [unpacked, signOf, magnitude_zero, Float.Model.UnpackedFloat.compare]
  · have above := magnitude_pos positive' e'
    rw [unpacked_of_pos positive', magnitude_zero]
    cases s <;> cases t <;>
      simp [unpacked, signOf, Float.Model.UnpackedFloat.compare, above.cmp_eq_lt,
        (neg_neg_of_pos above).cmp_eq_gt]
  · have above := magnitude_pos positive e
    rw [unpacked_of_pos positive, magnitude_zero]
    cases s <;> cases t <;>
      simp [unpacked, signOf, Float.Model.UnpackedFloat.compare, above.cmp_eq_gt,
        (neg_neg_of_pos above).cmp_eq_lt]
  · have above := magnitude_pos positive e
    have above' := magnitude_pos positive' e'
    rw [unpacked_of_pos positive, unpacked_of_pos positive']
    cases s <;> cases t
    · exact congrArg some order
    · exact congrArg some ((cmp_eq_gt_iff ..).mpr (by simp; linarith)).symm
    · exact congrArg some ((cmp_eq_lt_iff ..).mpr (by simp; linarith)).symm
    · have turned : ((compare e e').then (compare m m')).swap =
          cmp (-magnitude m e) (-magnitude m' e') := by
        rw [order, cmp_swap]
        simp [cmp, cmpUsing]
      exact congrArg some turned

/-- An infinity is beyond every finite double. -/
theorem compare_infinity_unpacked (s : Bool) (sign : Sign) (m : Nat) (e : Int) :
    (infinity (signOf s)).compare (unpacked sign m e) = some (if s then .lt else .gt) := by
  unfold unpacked
  split <;> cases s <;> rfl

theorem compare_unpacked_infinity (s : Bool) (sign : Sign) (m : Nat) (e : Int) :
    (unpacked sign m e).compare (infinity (signOf s)) = some (if s then .gt else .lt) := by
  unfold unpacked
  split <;> cases s <;> cases sign <;> rfl

variable {x y : Float}

theorem place?_finite (h : ofFloat x = .finite s m e) : ∃ e', OnGrid m e' ∧
    x.toModel.unpack = unpacked (signOf s) m e' ∧ (ofFloat x).place? =
      some (onLine (if s then -magnitude m e' else magnitude m e')) := by
  obtain ⟨e', grid, -, -, same, unpacks⟩ := of_finite h
  exact ⟨e', grid, unpacks, by rw [h, place?, same]⟩

/-- Doubles are compared by their places. -/
theorem compare_places (hx : (ofFloat x).place? = some a) (hy : (ofFloat y).place? = some b) :
    x.toModel.unpack.compare y.toModel.unpack = some (cmp a b) := by
  match sx : ofFloat x, sy : ofFloat y with
  | .nan, _ => simp [sx, place?] at hx
  | _, .nan => simp [sy, place?] at hy
  | .infinite s, .infinite t =>
    rw [sx] at hx
    rw [sy] at hy
    obtain rfl := Option.some.inj hx
    obtain rfl := Option.some.inj hy
    rw [of_infinite sx, of_infinite sy]
    cases s <;> cases t <;> rfl
  | .infinite s, .finite t m e =>
    obtain ⟨e', -, unpacks, place⟩ := place?_finite sy
    rw [sx] at hx
    obtain rfl := Option.some.inj hx
    obtain rfl := Option.some.inj (place.symm.trans hy)
    rw [of_infinite sx, unpacks, compare_infinity_unpacked]
    cases s <;> rfl
  | .finite s m e, .infinite t =>
    obtain ⟨e', -, unpacks, place⟩ := place?_finite sx
    rw [sy] at hy
    obtain rfl := Option.some.inj hy
    obtain rfl := Option.some.inj (place.symm.trans hx)
    rw [of_infinite sy, unpacks, compare_unpacked_infinity]
    cases t <;> rfl
  | .finite s m e, .finite t m' e' =>
    obtain ⟨_, grid, unpacks, place⟩ := place?_finite sx
    obtain ⟨_, grid', unpacks', place'⟩ := place?_finite sy
    obtain rfl := Option.some.inj (place.symm.trans hx)
    obtain rfl := Option.some.inj (place'.symm.trans hy)
    rw [unpacks, unpacks', compare_unpacked grid grid', cmp_onLine]

theorem place?_eq_none : (ofFloat x).place? = none ↔ x.toModel.unpack = .notANumber := by
  rw [ofFloat]
  split <;> simp_all [place?]

/-- What is no number is not compared. -/
theorem compare_eq (x y : Float) : x.toModel.unpack.compare y.toModel.unpack =
    (ofFloat x).place?.bind fun a => (ofFloat y).place?.map fun b => cmp a b := by
  cases hx : (ofFloat x).place? with
  | none =>
    rw [place?_eq_none.mp hx]
    rfl
  | some a =>
    cases hy : (ofFloat y).place? with
    | none =>
      rw [place?_eq_none.mp hy]
      cases x.toModel.unpack <;> rfl
    | some b => exact compare_places hx hy

theorem lt_iff : x < y ↔
    ∃ a b, (ofFloat x).place? = some a ∧ (ofFloat y).place? = some b ∧ a < b := by
  have less : x < y ↔ x.toModel.unpack.compare y.toModel.unpack = some .lt := by
    rw [← beq_iff_eq]
    exact decide_eq_true_iff
  rw [less, compare_eq]
  simp [Option.bind_eq_some_iff]

theorem le_iff : x ≤ y ↔
    ∃ a b, (ofFloat x).place? = some a ∧ (ofFloat y).place? = some b ∧ a ≤ b := by
  have most : x ≤ y ↔ (x.toModel.unpack.compare y.toModel.unpack).any (·.isLE) = true :=
    decide_eq_true_iff
  rw [most, compare_eq]
  cases (ofFloat x).place? <;> cases (ofFloat y).place? <;>
    simp [Ordering.isLE_iff_ne_gt, cmp_eq_gt_iff]

theorem beq_iff : (x == y) = true ↔
    ∃ a, (ofFloat x).place? = some a ∧ (ofFloat y).place? = some a := by
  have equal : (x == y) = true ↔ x.toModel.unpack.compare y.toModel.unpack = some .eq := by
    change (x.toModel.unpack.compare y.toModel.unpack == some .eq) = true ↔ _
    exact beq_iff_eq
  rw [equal, compare_eq]
  cases (ofFloat x).place? <;> cases (ofFloat y).place? <;> simp
  exact eq_comm

theorem isNaN_iff : x.isNaN = true ↔ (ofFloat x).place? = none := by
  rw [place?_eq_none]
  exact Float.Model.UnpackedFloat.isNaN_iff

theorem isNaN_of_place (h : (ofFloat x).place? = some a) : x.isNaN = false := by
  rw [Bool.eq_false_iff, Ne, isNaN_iff, h]
  nofun

theorem isFinite_iff : x.isFinite = true ↔ ∃ v, (ofFloat x).value? = some v := by
  have finite : x.isFinite = x.toModel.unpack.isFinite := rfl
  rw [finite, ofFloat]
  cases x.toModel.unpack <;> simp [Float.Model.UnpackedFloat.isFinite, value?]

theorem place?_of_value {b : Binary64} (h : b.value? = some v) : b.place? = some (onLine v) := by
  cases b with
  | nan => cases h
  | infinite => cases h
  | finite negative m e =>
    obtain rfl := Option.some.inj h
    rfl

/-- A magnitude is compared with a finite bound whether or not it is finite itself. -/
theorem place_make_le (grid : OnGrid m e) (finite : t < overflow) :
    ∃ p, (make false m e).place? = some p ∧ (p ≤ onLine t ↔ magnitude m e ≤ t) := by
  rcases le_or_gt e maxExponent with small | large
  · exact ⟨_, place?_of_value (value_make small false), by simp⟩
  · have beyond := grid.roundsTo.overflow_iff.mp large
    have positive : 0 < m := by
      rw [Nat.pos_iff_ne_zero, Ne, ← magnitude_eq_zero (e := e)]
      exact ((zero_lt_one.trans one_lt_overflow).trans_le beyond).ne'
    rw [make_infinite positive large]
    exact ⟨⊤, rfl, by simp [onLine, (finite.trans_le beyond).not_ge]⟩

/-- Bits that stand for the same double are the same. -/
theorem ofFloat_inj (same : ofFloat x = ofFloat y) : x = y := by
  have unpacked : x.toModel.unpack = y.toModel.unpack := by
    match sx : ofFloat x with
    | .nan =>
      rw [place?_eq_none.mp (by rw [sx, place?]), place?_eq_none.mp (by rw [← same, sx, place?])]
    | .infinite s => rw [of_infinite sx, of_infinite (same.symm.trans sx)]
    | .finite s m e =>
      obtain ⟨_, grid, -, -, magnitude', unpacks⟩ := of_finite sx
      obtain ⟨_, grid', -, -, magnitude'', unpacks'⟩ := of_finite (same.symm.trans sx)
      obtain ⟨-, rfl⟩ := grid.eq_of_magnitude grid' (magnitude'.trans magnitude''.symm)
      rw [unpacks, unpacks']
  have bits := (unpack_inj_of_valid x.toModel.valid y.toModel.valid).mp unpacked
  exact Float.toBits_inj.mp (UInt64.toBitVec_inj.mp bits)

end Reckon.Binary64
