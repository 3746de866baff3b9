import Reckon.Operation.Call
import Reckon.Proofs.Binary64.Order
import Reckon.Proofs.Operation.Parity
import Mathlib.Data.Rat.Sqrt

/-! Roots of exact numbers. The parts of a number in lowest terms are squares exactly if the number
is one, and whether an integer is a square is read off the floor of its root. -/
namespace Reckon

namespace Root

theorem improve_eq (n guess : Nat) : improve n guess = Nat.sqrt.iter n guess := by
  induction guess using Nat.strong_induction_on with
  | _ guess ih =>
    rw [improve, Nat.sqrt.iter]
    split
    · rename_i smaller
      exact ih _ smaller
    · rfl

theorem floor_eq (n : Nat) : floor n = n.sqrt := by
  rw [floor, Nat.sqrt, improve_eq]
  rfl

theorem perfect?_eq_some : perfect? n = some r ↔ r * r = n := by
  rw [perfect?, floor_eq]
  constructor
  · intro found
    obtain ⟨square, same⟩ := Option.ite_none_right_eq_some.mp found
    exact Option.some.inj same ▸ square
  · rintro rfl
    rw [Nat.sqrt_eq, if_pos rfl]

end Root

namespace Exact

/-- An exact root is the root. -/
theorem root?_eq_some {q r : Rat} (nonneg : 0 ≤ q) : root? q = some r ↔ 0 ≤ r ∧ r * r = q := by
  have num : ((q.num.natAbs : Int) : Rat) = q.num := by
    rw [Int.natAbs_of_nonneg (Rat.num_nonneg.mpr nonneg)]
  constructor
  · intro found
    unfold root? at found
    split at found
    · rename_i n d squareN squareD
      rw [Root.perfect?_eq_some] at squareN squareD
      obtain rfl := Option.some.inj found
      refine ⟨Rat.mkRat_nonneg (Int.natCast_nonneg n) d, ?_⟩
      calc mkRat n d * mkRat n d = ((n * n : Nat) : Int) / ((d * d : Nat) : Rat) := by
            rw [Rat.mkRat_eq_div]
            push_cast
            exact div_mul_div_comm ..
        _ = q := by rw [squareN, squareD, num, Rat.num_div_den]
    · cases found
  · rintro ⟨positive, rfl⟩
    have squareN : Root.perfect? (r * r).num.natAbs = some r.num.natAbs := by
      rw [Root.perfect?_eq_some, Rat.mul_self_num, Int.natAbs_mul]
    have squareD : Root.perfect? (r * r).den = some r.den := by
      rw [Root.perfect?_eq_some, Rat.mul_self_den]
    rw [root?, squareN, squareD]
    dsimp only
    rw [Int.natAbs_of_nonneg (Rat.num_nonneg.mpr positive), Rat.mkRat_self]

end Exact

namespace Binary64

/-- A double below zero has a sign. -/
theorem negative?_of_neg {x : Float} (below : x < 0) :
    (ofFloat x).negative? = some true := by
  obtain ⟨a, b, place, zero, less⟩ := lt_iff.mp below
  obtain rfl := Option.some.inj ((place?_of_value value_ofFloat_zero).symm.trans zero)
  cases same : ofFloat x with
  | nan => simp [same, place?] at place
  | infinite negative =>
    cases negative with
    | true => rfl
    | false =>
      rw [same] at place
      obtain rfl : ⊤ = a := Option.some.inj place
      exact absurd less not_top_lt
  | finite negative m e =>
    cases negative with
    | true => rfl
    | false =>
      rw [same] at place
      obtain rfl : onLine (magnitude m e) = a := Option.some.inj place
      exact absurd (onLine_lt.mp less) (magnitude_nonneg m e).not_gt

end Binary64

/-- The double of a number that is not below zero is not below zero. -/
theorem Exact.not_toFloat_neg {q : Rat} (nonneg : 0 ≤ q) : ¬toFloat q < 0 := by
  intro below
  have sign := Binary64.negative?_of_neg below
  by_cases defined : q.num.natAbs < Binary64.overflow ∨ q.den < Binary64.overflow
  · rw [negative?_toFloat defined] at sign
    exact (of_decide_eq_true (Option.some.inj sign)).not_ge nonneg
  · obtain ⟨num, den⟩ := not_or.mp defined
    rw [toFloat_nan (not_lt.mp num) (not_lt.mp den)] at sign
    cases sign

namespace Operation

theorem realRoot_double {q : Rat} (nonneg : 0 ≤ q) :
    realRoot (Exact.toFloat q) = .number (Exact.toFloat q).sqrt :=
  if_neg (Exact.not_toFloat_neg nonneg)

theorem root_exact_iff {q r : Rat} : root (.exact q) = .ok (.exact r) ↔ 0 ≤ r ∧ r ^ 2 = q := by
  rw [root]
  split
  · rename_i negative
    exact iff_of_false nofun fun h => (h.2 ▸ sq_nonneg r).not_gt negative
  · rename_i nonneg
    rw [pow_two, ← Exact.root?_eq_some (not_lt.mp nonneg), realRoot_double (not_lt.mp nonneg)]
    cases Exact.root? q with
    | none => exact iff_of_false nofun nofun
    | some r' => simp [pure, Except.pure]

/-- The root of an exact number is exact if and only if the number is a square, and then it is the
root that is not negative. Otherwise it is that of the double of the number: a plain number, or for
a negative number a complex one without a real part. -/
theorem sqrt_exact (s : Settings) (q : Rat) :
    ((∃ r, sqrt.call s [.exact q] = .ok (.exact r)) ↔ ∃ r : Rat, r ^ 2 = q) ∧
    (∀ r, sqrt.call s [.exact q] = .ok (.exact r) ↔ 0 ≤ r ∧ r ^ 2 = q) ∧
    (0 ≤ q → (¬∃ r : Rat, r ^ 2 = q) →
      sqrt.call s [.exact q] = .ok (.number (Exact.toFloat q).sqrt)) ∧
    (q < 0 → sqrt.call s [.exact q] = .ok (.complex ⟨0, (Exact.toFloat (-q)).sqrt⟩)) := by
  have run : sqrt.call s [.exact q] = root (.exact q) := rfl
  rw [run]
  refine ⟨⟨?_, ?_⟩, fun _ => root_exact_iff, fun nonneg irrational => ?_, fun negative => ?_⟩
  · rintro ⟨r, made⟩
    exact ⟨r, (root_exact_iff.mp made).2⟩
  · rintro ⟨r, square⟩
    exact ⟨|r|, root_exact_iff.mpr ⟨abs_nonneg r, (sq_abs r).trans square⟩⟩
  · have none : Exact.root? q = none := by
      refine Option.eq_none_iff_forall_ne_some.mpr fun r found => irrational ⟨r, ?_⟩
      rw [pow_two, ((Exact.root?_eq_some nonneg).mp found).2]
    rw [root, if_neg nonneg.not_gt, none, realRoot_double nonneg]
    rfl
  · rw [root, if_pos negative]
    rfl

/-- A square, a number that is none, and one below zero. -/
theorem sqrt_exact_cases :
    sqrt.call {} [.exact (9 / 4)] = .ok (.exact (3 / 2)) ∧
    ((0 : Rat) ≤ 2 ∧ (¬∃ r : Rat, r ^ 2 = 2) ∧
      sqrt.call {} [.exact 2] = .ok (.number (Exact.toFloat 2).sqrt)) ∧
    ((-4 : Rat) < 0 ∧
      sqrt.call {} [.exact (-4)] = .ok (.complex ⟨0, (Exact.toFloat (-(-4))).sqrt⟩)) := by
  have irrational : ¬∃ r : Rat, r ^ 2 = 2 := by
    rintro ⟨r, square⟩
    have none : ¬IsSquare (2 : Rat) := by decide +kernel
    exact none ⟨r, square.symm.trans (pow_two r)⟩
  have half : (0 : Rat) ≤ 3 / 2 ∧ (3 / 2 : Rat) ^ 2 = 9 / 4 := by norm_num
  have positive : (0 : Rat) ≤ 2 := by decide
  have negative : (-4 : Rat) < 0 := by decide
  exact ⟨((sqrt_exact {} (9 / 4)).2.1 (3 / 2)).mpr half,
    ⟨positive, irrational, (sqrt_exact {} 2).2.2.1 positive irrational⟩,
    negative, (sqrt_exact {} (-4)).2.2.2 negative⟩

end Operation
end Reckon
