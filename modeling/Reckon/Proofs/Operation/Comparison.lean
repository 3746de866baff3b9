import Reckon.Proofs.Exact.Arithmetic
import Reckon.Proofs.Operation.Broadcast
import Reckon.Proofs.Tolerance

/-! The seven comparisons of two operands of one kind. One order decides all of them; where an
operand is no number there is none, and only `compare` still has an answer. -/
namespace Reckon

def Value.hasNaN : Value → Bool
  | number x => x.isNaN
  | quantity q => q.si.isNaN
  | _ => false

/-- Two operands of one kind that has an order; quantities measure one base. -/
inductive Comparable : Value → Value → Prop
  | numbers (x y : Float) : Comparable (.number x) (.number y)
  | exacts (p q : Rat) : Comparable (.exact p) (.exact q)
  | texts (a b : String) : Comparable (.text a) (.text b)
  | quantities : p.base = q.base → Comparable (.quantity p) (.quantity q)

namespace Rule

def isComparison : Rule → Bool
  | equal | unequal | smaller | smallerEq | larger | largerEq | compare => true
  | _ => false

def comparison? (agree : Bool) (order : Option Ordering) (sorted : Ordering) (r : Rule) :
    Option (Outcome Value) :=
  match r with
  | .equal | .unequal => boolean? (r.agrees? agree)
  | .smaller | .smallerEq | .larger | .largerEq => boolean? (r.holds? order)
  | .compare => some (.ok (sign sorted))
  | _ => none

/-- All comparisons of two operands follow from one order, if there is one. -/
structure DecidedBy (order : Option Ordering) (s : Settings) (x y : Value) : Prop where
  equal : Rule.equal.apply s x y = .ok (.boolean (order == some .eq))
  unequal : Rule.unequal.apply s x y = .ok (.boolean !(order == some .eq))
  smaller : Rule.smaller.apply s x y = .ok (.boolean (order == some .lt))
  smallerEq :
    Rule.smallerEq.apply s x y = .ok (.boolean (order == some .lt || order == some .eq))
  larger : Rule.larger.apply s x y = .ok (.boolean (order == some .gt))
  largerEq : Rule.largerEq.apply s x y = .ok (.boolean (order == some .gt || order == some .eq))
  compare : ∃ c, Rule.compare.apply s x y = .ok (sign c) ∧ (order = none ∨ order = some c)

section

variable {r : Rule} {s : Settings} {x y : Value}

theorem apply_direct (hx : x.isArray = false) (hy : y.isArray = false)
    (rule : r.direct s x y = some result) : r.apply s x y = result := by
  rw [apply_leaves r s hx hy, applyLeaves_direct rule]

theorem numbers_comparison (x y : Float) (s : Settings) (h : r.isComparison = true) :
    numbers x y s r = comparison? (Tolerance.nearlyEqual x y s.epsilon)
      (Tolerance.tolerantOrder? x y s.epsilon) (Tolerance.sortOrder x y s.epsilon) r := by
  cases r <;> first | rfl | cases h

theorem exacts_comparison (p q : Rat) (h : r.isComparison = true) :
    exacts p q r = comparison? (p = q) (some (cmp p q)) (cmp p q) r := by
  cases r <;> first | rw [← exactOrder_eq]; rfl | cases h

theorem texts_comparison (a b : String) (h : r.isComparison = true) :
    texts a b r = comparison? (a = b) (some (Ord.compare a b)) (Ord.compare a b) r := by
  cases r <;> first | rfl | cases h

/-- Comparisons of quantities are those of their sizes, under one base. -/
theorem quantities_comparison (p q : Quantity) (s : Settings) (h : r.isComparison = true) :
    quantities p q s r = (numbers p.si q.si s r).map (r.sameBase p q) := by
  cases r <;> first | rfl | cases h

theorem sameBase_fits (r : Rule) (same : p.base = q.base) : r.sameBase p q = id := by
  have base : p.sameBase q = true := decide_eq_true same
  funext result
  rw [sameBase, if_pos base]
  rfl

theorem sameBase_fails (r : Rule) (differ : p.base ≠ q.base) : r.sameBase p q =
    fun _ => .error (.dimensions r.name (.bases p.unitName q.unitName)) := by
  have base : p.sameBase q = false := decide_eq_false differ
  funext result
  rw [sameBase, base, if_neg Bool.false_ne_true]
  rfl

theorem isSome_comparison (h : r.isComparison = true) (agree : Bool) (order : Option Ordering)
    (sorted : Ordering) : ∃ v, comparison? agree order sorted r = some (.ok v) := by
  cases r <;> first | exact ⟨_, rfl⟩ | cases h

/-- Exact numbers are compared without being rounded. -/
theorem direct_exacts (s : Settings) (h : r.isComparison = true) (p q : Rat) :
    r.direct s (.exact p) (.exact q) = exacts p q r := by
  obtain ⟨v, made⟩ := isSome_comparison h (p = q) (some (cmp p q)) (cmp p q)
  rw [direct, exacts_comparison p q h, made]

/-- Operands agree if their order says so, and they are sorted by it. -/
theorem DecidedBy.of_direct {order : Option Ordering} {sorted : Ordering}
    (hx : x.isArray = false) (hy : y.isArray = false)
    (rules : ∀ r : Rule, r.isComparison = true →
      r.direct s x y = comparison? (order == some .eq) order sorted r)
    (same : order = none ∨ order = some sorted) : DecidedBy order s x y := by
  have rule {r : Rule} {result} (h : r.isComparison = true)
      (made : comparison? (order == some .eq) order sorted r = some result) :
      r.apply s x y = result := apply_direct hx hy ((rules r h).trans made)
  refine ⟨rule rfl rfl, rule rfl rfl, rule rfl ?_, rule rfl ?_, rule rfl ?_, rule rfl ?_,
    sorted, rule rfl rfl, same⟩ <;> cases order with
    | none => rfl
    | some c => cases c <;> rfl

theorem decidedBy_numbers (x y : Float) (s : Settings) :
    DecidedBy (Tolerance.tolerantOrder? x y s.epsilon) s (.number x) (.number y) := by
  refine .of_direct rfl rfl (fun r h => ?_) (Tolerance.tolerantOrder?_eq_none_or ..)
  rw [← Tolerance.nearlyEqual_eq]
  exact numbers_comparison x y s h

theorem decidedBy_exacts (p q : Rat) (s : Settings) :
    DecidedBy (some (cmp p q)) s (.exact p) (.exact q) := by
  refine .of_direct rfl rfl (fun r h => ?_) (.inr rfl)
  have agree : decide (p = q) = (some (cmp p q) == some .eq) := by
    rw [Bool.eq_iff_iff, decide_eq_true_iff, beq_iff_eq, Option.some_inj, cmp_eq_eq_iff]
  rw [← agree, direct_exacts s h]
  exact exacts_comparison p q h

theorem decidedBy_texts (a b : String) (s : Settings) :
    DecidedBy (some (Ord.compare a b)) s (.text a) (.text b) := by
  refine .of_direct rfl rfl (fun r h => ?_) (.inr rfl)
  have agree : decide (a = b) = (some (Ord.compare a b) == some .eq) := by
    rw [Bool.eq_iff_iff, decide_eq_true_iff, beq_iff_eq, Option.some_inj, Std.compare_eq_iff_eq]
  rw [← agree]
  exact texts_comparison a b h

theorem decidedBy_quantities (s : Settings) (same : p.base = q.base) :
    DecidedBy (Tolerance.tolerantOrder? p.si q.si s.epsilon) s (.quantity p) (.quantity q) := by
  refine .of_direct rfl rfl (fun r h => ?_) (Tolerance.tolerantOrder?_eq_none_or ..)
  rw [← Tolerance.nearlyEqual_eq, direct, quantities_comparison p q s h, sameBase_fits r same,
    Option.map_id]
  exact numbers_comparison p.si q.si s h

theorem different_bases (s : Settings) (differ : p.base ≠ q.base) (h : r.isComparison = true) :
    r.apply s (.quantity p) (.quantity q) =
      .error (.dimensions r.name (.bases p.unitName q.unitName)) := by
  obtain ⟨v, made⟩ := isSome_comparison h (Tolerance.nearlyEqual p.si q.si s.epsilon)
    (Tolerance.tolerantOrder? p.si q.si s.epsilon) (Tolerance.sortOrder p.si q.si s.epsilon)
  refine apply_direct rfl rfl ?_
  rw [direct, quantities_comparison p q s h, numbers_comparison p.si q.si s h, made,
    sameBase_fails r differ, Option.map_some]

/-- Any two operands of one kind that has an order are compared coherently under every tolerance:
one order decides all seven comparisons, and there is none exactly if an operand is no number.
Quantities of different bases cannot be compared. -/
theorem comparisons_coherent (s : Settings) :
    (∀ x y, Comparable x y → ∃ order : Option Ordering,
      (order = none ↔ x.hasNaN = true ∨ y.hasNaN = true) ∧ DecidedBy order s x y) ∧
    ∀ p q : Quantity, p.base ≠ q.base → ∀ r : Rule, r.isComparison = true →
      r.apply s (.quantity p) (.quantity q) =
        .error (.dimensions r.name (.bases p.unitName q.unitName)) := by
  refine ⟨fun x y h => ?_, fun p q differ r h => different_bases s differ h⟩
  cases h with
  | numbers x y => exact ⟨_, Tolerance.tolerantOrder?_eq_none, decidedBy_numbers x y s⟩
  | exacts p q => exact ⟨_, by simp [Value.hasNaN], decidedBy_exacts p q s⟩
  | texts a b => exact ⟨_, by simp [Value.hasNaN], decidedBy_texts a b s⟩
  | quantities same => exact ⟨_, Tolerance.tolerantOrder?_eq_none, decidedBy_quantities s same⟩

/-- A tolerance that is no number, and lengths against a time. -/
theorem comparisons_coherent_lengths :
    let metre : Quantity := ⟨⟨"m", .length, 1⟩, some 5⟩
    let mile : Quantity := ⟨⟨"mi", .length, 1609.344⟩, none⟩
    let second : Quantity := ⟨⟨"s", .time, 1⟩, some 5⟩
    (Comparable (.quantity metre) (.quantity mile) ∧ ∃ order : Option Ordering,
      DecidedBy order { epsilon := 0 / 0 } (.quantity metre) (.quantity mile)) ∧
    (metre.base ≠ second.base ∧ Rule.smaller.isComparison = true ∧
      Rule.smaller.apply { epsilon := 0 / 0 } (.quantity metre) (.quantity second) =
        .error (.dimensions "smaller" (.bases ⟨"m", .length⟩ ⟨"s", .time⟩))) := by
  intro metre mile second
  obtain ⟨coherent, bases⟩ := comparisons_coherent { epsilon := 0 / 0 }
  have lengths : Comparable (.quantity metre) (.quantity mile) := .quantities rfl
  obtain ⟨order, -, decided⟩ := coherent _ _ lengths
  exact ⟨⟨lengths, order, decided⟩, by decide, rfl, bases _ _ (by decide) _ rfl⟩

end

end Rule
end Reckon
