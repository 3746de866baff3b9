import Reckon.Proofs.Operation.Comparison
import Reckon.Proofs.Promotion

/-! Binary operations with their operands exchanged. What holds of the direct rules is passed on by
promotion, which treats both orders alike, and by the walk, which meets the same pairs in the same
order. So each comparison is the mirror of one, its faults included. -/
namespace Reckon

def Mismatch.mirror : Mismatch → Mismatch
  | lengths left right => lengths right left
  | bases left right => bases right left
  | m => m

def Fault.mirror (name : String) : Fault → Fault
  | unsupported _ kinds => unsupported name kinds.reverse
  | dimensions _ mismatch => dimensions name mismatch.mirror
  | e => e

/-- Exchanged operands do not change what kind of fault it is. -/
theorem Fault.mirror_ctorIdx (name : String) (e : Fault) : (e.mirror name).ctorIdx = e.ctorIdx := by
  cases e <;> rfl

namespace Outcome

/-- Two outcomes, of which the second is that of exchanged operands: related values, or one fault
seen from both sides. -/
abbrev Mirrored (name : String) (R : α → β → Prop) : Outcome α → Outcome β → Prop :=
  Related (fun e e' => e' = e.mirror name) R

end Outcome

open Outcome (Mirrored)

namespace Value

section

variable {x y : Value}

theorem pairs_swap (x y : Value) : pairs y x = (pairs x y).map Prod.swap := by
  rcases x.leaf_or_array with hx | ⟨xs, rfl⟩ <;> rcases y.leaf_or_array with hy | ⟨ys, rfl⟩
  · rw [pairs_leaves hx hy, pairs_leaves hy hx, List.map_nil]
  · rw [pairs_right hx, pairs_left hx, List.map_map]
    rfl
  · rw [pairs_left hy, pairs_right hy, List.map_map]
    rfl
  · exact (List.zip_swap xs ys).symm

/-- The walk in both orders meets the same pairs, and arrays that do not fit in both. -/
theorem combine_mirrored {f g : Value → Value → Outcome Value} {R : Value → Value → Prop}
    (nested : (x.isArray || y.isArray) = true)
    (arrays : ∀ vs ws, List.Forall₂ R vs ws → R (.array vs) (.array ws))
    (each : ∀ a b, (a, b) ∈ pairs x y → Mirrored name' R (f a b) (g b a)) :
    Mirrored name' R (combine name f x y) (combine name' g y x) := by
  rcases combine_cases name f x y with ⟨hx, hy⟩ | ⟨xs, ys, rfl, rfl, differ, fails⟩ |
    ⟨-, fit, combined⟩
  · simp [hx, hy] at nested
  · rw [fails, combine, if_pos differ.symm]
    exact .faults rfl
  · rcases combine_cases name' g y x with ⟨hy, hx⟩ | ⟨ys, xs, rfl, rfl, differ, -⟩ |
      ⟨-, -, combined'⟩
    · simp [hx, hy] at nested
    · exact absurd (fit xs ys rfl rfl) differ.symm
    · rw [combined, combined', pairs_swap x y, List.mapM_map]
      refine (Outcome.Related.mapM ?_).bind fun vs ws related => .values (arrays vs ws related)
      rw [List.forall₂_same]
      exact fun p member => each p.1 p.2 member

/-- The rule for leaves decides how the results of a whole walk are related. -/
theorem zipLeaves_mirrored {f g : Value → Value → Outcome Value} {R : Value → Value → Prop}
    (arrays : ∀ vs ws, List.Forall₂ R vs ws → R (.array vs) (.array ws))
    (leaves : ∀ a b, Mirrored name' R (f a b) (g b a)) (x y : Value) :
    Mirrored name' R (zipLeaves name f x y) (zipLeaves name' g y x) := by
  induction size : sizeOf x + sizeOf y using Nat.strong_induction_on generalizing x y with
  | _ n ih =>
    by_cases nested : (x.isArray || y.isArray) = true
    · rw [zipLeaves_eq_combine, zipLeaves_eq_combine]
      exact combine_mirrored nested arrays fun a b member =>
        ih _ (size ▸ size_of_pairs member) a b rfl
    · obtain ⟨hx, hy⟩ : x.isArray = false ∧ y.isArray = false := by simpa using nested
      rw [zipLeaves_of_leaf hx, mapLeaves_of_leaf hy, zipLeaves_of_leaf hy, mapLeaves_of_leaf hx]
      exact leaves x y

/-- The negation of a value, element by element, up to the sign of zeros. -/
def Negates (s : Settings) (v w : Value) : Prop :=
  ∃ n, Operation.unaryMinus.call s [w] = .ok n ∧ v.same n = true

theorem negates_array {s : Settings} (each : List.Forall₂ (Negates s) vs ws) :
    Negates s (array vs) (array ws) := by
  have whole : ∃ ns, mapElements (mapLeaves Operation.negate) ws = .ok ns ∧
      sameAll vs ns = true := by
    induction each with
    | nil => exact ⟨[], rfl, rfl⟩
    | cons first _ ih =>
      obtain ⟨n, made, same⟩ := first
      obtain ⟨ns, rest, all⟩ := ih
      have made : mapLeaves Operation.negate _ = .ok n := made
      exact ⟨n :: ns, by rw [mapElements, made, rest]; rfl, by rw [sameAll, same, all]; rfl⟩
  obtain ⟨ns, made, same⟩ := whole
  refine ⟨array ns, ?_, by rw [Value.same, same]⟩
  change mapLeaves Operation.negate (array ws) = _
  rw [mapLeaves, mapLeavesAll_eq, made]
  rfl

end

end Value

namespace Rule

def mirror : Rule → Rule
  | smaller => larger
  | smallerEq => largerEq
  | larger => smaller
  | largerEq => smallerEq
  | r => r

/-- How the result of a comparison is related to that of exchanged operands. -/
def Reversed (s : Settings) : Rule → Value → Value → Prop
  | compare => Value.Negates s
  | _ => Eq

section

variable {r r' : Rule} {s : Settings} {R : Value → Value → Prop}

theorem rel_cases {P : α → β → Prop} {a : Option α} {b : Option β} (h : Option.Rel P a b) :
    (a = none ∧ b = none) ∨ ∃ v w, a = some v ∧ b = some w ∧ P v w := by
  cases h with
  | none => exact .inl ⟨rfl, rfl⟩
  | some related => exact .inr ⟨_, _, rfl, rfl, related⟩

/-- Leaves that are promoted alike have outcomes that mirror each other if those of the direct rules
do. -/
theorem applyLeaves_mirrored
    (rule : ∀ x y, Option.Rel (Mirrored r'.name R) (r.direct s x y) (r'.direct s y x))
    (steps : Nat) (x y : Value) :
    Mirrored r'.name R (r.applyLeaves s steps x y) (r'.applyLeaves s steps y x) := by
  refine applyLeaves_related (P := fun a b => b = a.swap) ?_ ?_ ?_ steps (a := (x, y)) rfl
  · rintro a _ rfl
    exact rule a.1 a.2
  · rintro a _ rfl
    rw [Prod.fst_swap, Prod.snd_swap, Value.promote?_swap a.1 a.2]
    cases a.1.promote? a.2 with
    | none => exact .none
    | some operands => exact .some rfl
  · rintro a _ rfl
    exact .faults rfl

theorem apply_mirrored (arrays : ∀ vs ws, List.Forall₂ R vs ws → R (.array vs) (.array ws))
    (rule : ∀ x y, Option.Rel (Mirrored r'.name R) (r.direct s x y) (r'.direct s y x))
    (x y : Value) : Mirrored r'.name R (r.apply s x y) (r'.apply s y x) :=
  Value.zipLeaves_mirrored arrays (applyLeaves_mirrored rule maxPromotions) x y

theorem negates_sign (s : Settings) (c : Ordering) : Value.Negates s (sign c) (sign c.swap) := by
  cases c with
  | lt => exact ⟨_, rfl, by decide +kernel⟩
  | eq => exact ⟨_, rfl, by decide +kernel⟩
  | gt => exact ⟨_, rfl, by decide +kernel⟩

/-- Comparisons of leaves mirror each other where agreement is symmetric and the orders are
exchanged. -/
theorem comparison?_mirrored (s : Settings) (agree : Bool) (order : Option Ordering)
    (sorted : Ordering) (r : Rule) : Option.Rel (Mirrored r.mirror.name (Reversed s r))
      (comparison? agree order sorted r)
      (comparison? agree (order.map Ordering.swap) sorted.swap r.mirror) := by
  cases r with
  | equal | unequal => exact .some (.values rfl)
  | smaller | smallerEq | larger | largerEq =>
    cases order with
    | none => exact .some (.values rfl)
    | some c => cases c <;> exact .some (.values rfl)
  | compare => exact .some (.values (negates_sign s sorted))
  | _ => exact .none

theorem isComparison_mirror (h : r.isComparison = true) : r.mirror.isComparison = true := by
  cases r <;> first | rfl | cases h

theorem numbers_mirrored (h : r.isComparison = true) (x y : Float) :
    Option.Rel (Mirrored r.mirror.name (Reversed s r)) (numbers x y s r)
      (numbers y x s r.mirror) := by
  rw [numbers_comparison x y s h, numbers_comparison y x s (isComparison_mirror h),
    Tolerance.nearlyEqual_comm y x, Tolerance.tolerantOrder?_swap x y,
    Tolerance.sortOrder_swap x y]
  exact comparison?_mirrored s _ _ _ r

theorem exacts_mirrored (h : r.isComparison = true) (p q : Rat) :
    Option.Rel (Mirrored r.mirror.name (Reversed s r)) (exacts p q r) (exacts q p r.mirror) := by
  rw [exacts_comparison p q h, exacts_comparison q p (isComparison_mirror h), ← cmp_swap p q]
  simp only [eq_comm (a := q) (b := p)]
  exact comparison?_mirrored s _ _ _ r

theorem texts_mirrored (h : r.isComparison = true) (a b : String) :
    Option.Rel (Mirrored r.mirror.name (Reversed s r)) (texts a b r) (texts b a r.mirror) := by
  rw [texts_comparison a b h, texts_comparison b a (isComparison_mirror h),
    Std.OrientedOrd.eq_swap (a := b)]
  simp only [eq_comm (a := b) (b := a)]
  exact comparison?_mirrored s _ _ _ r

/-- Kinds without an order are only compared for agreement. -/
theorem agreement_mirrored (s : Settings) (agree : Bool) (r : Rule) :
    Option.Rel (Mirrored r.mirror.name (Reversed s r)) (boolean? (r.agrees? agree))
      (boolean? (r.mirror.agrees? agree)) := by
  cases r with
  | equal | unequal => exact .some (.values rfl)
  | _ => exact .none

theorem complexes_agreement (h : r.isComparison = true) (z w : Complex) : complexes z w s r =
    boolean? (r.agrees? (Tolerance.nearlyEqualComplex z w s.epsilon)) := by
  cases r <;> first | rfl | cases h

theorem booleans_agreement (h : r.isComparison = true) (a b : Bool) :
    booleans a b r = boolean? (r.agrees? (a = b)) := by
  cases r <;> first | rfl | cases h

theorem complexes_mirrored (h : r.isComparison = true) (z w : Complex) :
    Option.Rel (Mirrored r.mirror.name (Reversed s r)) (complexes z w s r)
      (complexes w z s r.mirror) := by
  have agree : Tolerance.nearlyEqualComplex w z s.epsilon =
      Tolerance.nearlyEqualComplex z w s.epsilon := by
    rw [Tolerance.nearlyEqualComplex, Tolerance.nearlyEqualComplex, Tolerance.nearlyEqual_comm w.re,
      Tolerance.nearlyEqual_comm w.im]
  rw [complexes_agreement h, complexes_agreement (isComparison_mirror h), agree]
  exact agreement_mirrored s _ r

theorem booleans_mirrored (h : r.isComparison = true) (a b : Bool) :
    Option.Rel (Mirrored r.mirror.name (Reversed s r)) (booleans a b r)
      (booleans b a r.mirror) := by
  rw [booleans_agreement h, booleans_agreement (isComparison_mirror h)]
  simp only [eq_comm (a := b) (b := a)]
  exact agreement_mirrored s _ r

theorem quantities_mirrored (h : r.isComparison = true) (p q : Quantity) :
    Option.Rel (Mirrored r.mirror.name (Reversed s r)) (quantities p q s r)
      (quantities q p s r.mirror) := by
  have related := numbers_mirrored (s := s) h p.si q.si
  rw [quantities_comparison p q s h, quantities_comparison q p s (isComparison_mirror h)]
  by_cases same : p.base = q.base
  · rw [sameBase_fits r same, sameBase_fits r.mirror same.symm, Option.map_id]
    exact related
  · rw [sameBase_fails r same, sameBase_fails r.mirror (Ne.symm same)]
    rcases rel_cases related with ⟨none, none'⟩ | ⟨v, w, some, some', -⟩
    · rw [none, none']
      exact .none
    · rw [some, some']
      exact .some (.faults rfl)

/-- No number is compared with a quantity. -/
theorem mixed_mirrored (h : r.isComparison = true) (p : Quantity) (y : Float) :
    quantityNumber p y r = none ∧ numberQuantity y p r = none := by
  cases r <;> first | exact ⟨rfl, rfl⟩ | cases h

theorem direct_mirrored (h : r.isComparison = true) (x y : Value) :
    Option.Rel (Mirrored r.mirror.name (Reversed s r)) (r.direct s x y)
      (r.mirror.direct s y x) := by
  cases x <;> cases y
  case number.number x y => exact numbers_mirrored h x y
  case complex.complex z w => exact complexes_mirrored h z w
  case exact.exact p q =>
    rw [direct_exacts s h, direct_exacts s (isComparison_mirror h)]
    exact exacts_mirrored h p q
  case quantity.quantity p q => exact quantities_mirrored h p q
  case text.text a b => exact texts_mirrored h a b
  case boolean.boolean a b => exact booleans_mirrored h a b
  case number.quantity x q =>
    rw [direct, direct, (mixed_mirrored h q x).2, (mixed_mirrored (isComparison_mirror h) q x).1]
    exact .none
  case quantity.number p y =>
    rw [direct, direct, (mixed_mirrored h p y).1, (mixed_mirrored (isComparison_mirror h) p y).2]
    exact .none
  all_goals exact .none

theorem reversed_array (s : Settings) (r : Rule) (vs ws : List Value)
    (each : List.Forall₂ (Reversed s r) vs ws) : Reversed s r (.array vs) (.array ws) := by
  cases r with
  | compare => exact Value.negates_array each
  | _ => exact congrArg Value.array (List.forall₂_eq_eq_eq ▸ each)

/-- A comparison of any two values, and its mirror with the values exchanged. -/
theorem comparison_mirrored (r : Rule) (h : r.isComparison = true) (x y : Value) :
    Mirrored r.mirror.name (Reversed s r) (r.apply s x y) (r.mirror.apply s y x) :=
  apply_mirrored (reversed_array s r) (direct_mirrored h) x y

def Dual (s : Settings) (x y : Value) (R : Value → Value → Prop) (r r' : Rule) : Prop :=
  Mirrored r'.name R (r.apply s x y) (r'.apply s y x)

/-- Comparisons of any two values are dual under exchange of the operands. Both orders have a
result, or both fail with one fault seen from both sides; the results are the same, or for `compare`
negations of each other. -/
theorem comparisons_dual (s : Settings) (x y : Value) :
    Dual s x y Eq .equal .equal ∧ Dual s x y Eq .unequal .unequal ∧
    Dual s x y Eq .smaller .larger ∧ Dual s x y Eq .smallerEq .largerEq ∧
    Dual s x y (Value.Negates s) .compare .compare ∧
    ∀ name (e : Fault), (e.mirror name).ctorIdx = e.ctorIdx :=
  ⟨comparison_mirrored .equal rfl x y, comparison_mirrored .unequal rfl x y,
    comparison_mirrored .smaller rfl x y, comparison_mirrored .smallerEq rfl x y,
    comparison_mirrored .compare rfl x y, Fault.mirror_ctorIdx⟩

end

end Rule

end Reckon
