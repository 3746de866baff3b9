import Reckon.Operation.Call
import Reckon.Proofs.Operation.Mirror
import Reckon.Proofs.Operation.Refusal

/-! Multiplication of any two values in both orders. Products and sums of doubles commute, so the
direct rules do, and promotion and the walk treat both orders alike. -/
namespace Reckon

namespace Binary64

open Float.Model.UnpackedFloat

theorem sign_mul_comm (s t : Sign) : s * t = t * s := by
  cases s <;> cases t <;> rfl

theorem unpacked_mul_comm (a b : Float.Model.UnpackedFloat) :
    mul .binary64 a b = mul .binary64 b a := by
  cases a <;> cases b
  case finite.finite s m e _ t n f _ =>
    rw [mul, mul, sign_mul_comm, Nat.mul_comm, Int.add_comm]
  all_goals simp only [mul, sign_mul_comm]

theorem unpacked_add_comm (a b : Float.Model.UnpackedFloat) :
    add .binary64 a b = add .binary64 b a := by
  cases a <;> cases b
  case finite.finite s m e _ t n f _ =>
    simp only [add, min_comm e f, Int.add_comm]
  case infinity.infinity s t => cases s <;> cases t <;> rfl
  case zero.zero s t => cases s <;> cases t <;> rfl
  all_goals rfl

theorem mul_comm (x y : Float) : x * y = y * x :=
  congrArg (fun u => (⟨.pack u⟩ : Float)) (unpacked_mul_comm x.toModel.unpack y.toModel.unpack)

theorem add_comm (x y : Float) : x + y = y + x :=
  congrArg (fun u => (⟨.pack u⟩ : Float)) (unpacked_add_comm x.toModel.unpack y.toModel.unpack)

end Binary64

theorem Complex.mul_comm (z w : Complex) : z * w = w * z := by
  have re : z.re * w.re - z.im * w.im = w.re * z.re - w.im * z.im := by
    rw [Binary64.mul_comm z.re, Binary64.mul_comm z.im]
  have im : z.re * w.im + z.im * w.re = w.re * z.im + w.im * z.re := by
    rw [Binary64.add_comm, Binary64.mul_comm z.im, Binary64.mul_comm z.re]
  exact congrArg₂ Complex.mk re im

namespace Rule

open Outcome (Mirrored)

section

variable {s : Settings} {x y : Value}

/-- A quantity is scaled by a number that stands on either side of it. -/
theorem scale_comm (p : Quantity) (y : Float) :
    quantityNumber p y multiply = numberQuantity y p multiply := by
  rw [quantityNumber, numberQuantity, Binary64.mul_comm]

theorem multiply_direct_comm (s : Settings) (x y : Value) :
    multiply.direct s x y = multiply.direct s y x := by
  cases x <;> cases y
  case number.number x y => simp only [direct, numbers, Binary64.mul_comm]
  case complex.complex z w => simp only [direct, complexes, Complex.mul_comm]
  case exact.exact p q => simp only [direct, exacts, Rat.mul_comm]
  case quantity.number p y => exact scale_comm p y
  case number.quantity x q => exact (scale_comm q x).symm
  all_goals rfl

/-- Two leaves that can be multiplied directly have a product. -/
theorem multiply_direct_ok (made : multiply.direct s x y = some result) :
    ∃ z, result = .ok z := by
  cases x <;> cases y <;> cases made <;> exact ⟨_, rfl⟩

theorem multiply_mirrored (s : Settings) (x y : Value) :
    Mirrored multiply.name Eq (multiply.apply s x y) (multiply.apply s y x) := by
  refine apply_mirrored (fun vs ws each => ?_) (fun x y => ?_) x y
  · exact congrArg Value.array (List.forall₂_eq_eq_eq ▸ each)
  · rw [multiply_direct_comm s y x]
    cases made : multiply.direct s x y with
    | none => exact .none
    | some result =>
      obtain ⟨z, rfl⟩ := multiply_direct_ok made
      exact .some (.values rfl)

theorem multiply_leaves_fault (fails : multiply.applyLeaves s maxPromotions x y = .error e) :
    ∃ k l, e = .unsupported multiply.name [k, l] := by
  rcases applyLeaves_cases (r := multiply) (s := s) (Value.settlesIn_two x y) with
    ⟨a, b, -, result⟩ | ⟨a, b, -, result⟩
  · obtain ⟨z, product⟩ := multiply_direct_ok result
    cases fails.symm.trans product
  · exact ⟨a.kind, b.kind, Except.error.inj (fails.symm.trans result)⟩

/-- Multiplication fails on leaves of kinds that have no product and on arrays that do not fit. -/
theorem multiply_fault (fails : multiply.apply s x y = .error e) :
    (∃ k l, e = .unsupported multiply.name [k, l]) ∨
      ∃ m n, m ≠ n ∧ e = .dimensions multiply.name (.lengths m n) := by
  have walked := multiply.walked_apply s x y
  rw [fails] at walked
  cases walked with
  | fails first =>
    cases first.fails with
    | lengths _ differ => exact .inr ⟨_, _, differ, rfl⟩
    | leaves _ _ _ made => exact .inl (multiply_leaves_fault made)

end

end Rule

namespace Operation

/-- Multiplication of any two values commutes: both orders have the same product, or both fail on
leaves of the same two kinds, or both on arrays of the same two lengths, listed in the order of the
operands. -/
theorem multiply_comm (s : Settings) (x y : Value) :
    let product := fun x y => (rule .multiply).call s [x, y]
    (∃ z, product x y = .ok z ∧ product y x = .ok z) ∨
    (∃ k l, product x y = .error (.unsupported "multiply" [k, l]) ∧
      product y x = .error (.unsupported "multiply" [l, k])) ∨
    ∃ m n, m ≠ n ∧ product x y = .error (.dimensions "multiply" (.lengths m n)) ∧
      product y x = .error (.dimensions "multiply" (.lengths n m)) := by
  intro product
  have mirrored := Rule.multiply_mirrored s x y
  change Outcome.Mirrored _ _ (product x y) (product y x) at mirrored
  generalize made : product x y = v, product y x = w at mirrored
  cases mirrored with
  | values same => exact .inl ⟨_, rfl, congrArg Except.ok same.symm⟩
  | faults mirror =>
    subst mirror
    rcases Rule.multiply_fault made with ⟨k, l, rfl⟩ | ⟨m, n, differ, rfl⟩
    · exact .inr (.inl ⟨k, l, rfl, rfl⟩)
    · exact .inr (.inr ⟨m, n, differ, rfl, rfl⟩)

end Operation
end Reckon
