import Reckon.Operation.Binary

/-! Promotion, one step after the other. A step leaves no truth value behind and changes the kinds,
and what holds no truth value is promoted once at most, to kinds that meet. So two steps settle any
two operands, which are as many as a binary operation makes. -/
namespace Reckon

def Kind.Meets (k l : Kind) : Prop :=
  k = l ∨ (k = .number ∧ l = .quantity) ∨ (k = .quantity ∧ l = .number)

namespace Value

variable {x y a b : Value}

/-- Promotion does not depend on which operand comes first. -/
theorem promote?_swap (x y : Value) : y.promote? x = (x.promote? y).map Prod.swap := by
  cases x <;> cases y <;> simp [promote?, isNumeric, booleanToNumber]
  case number.exact x q => cases Exact.ofFloat? x <;> rfl
  case exact.number q x => cases Exact.ofFloat? x <;> rfl

theorem promote?_number_exact_ne (x : Float) (q : Rat) : (number x).promote? (exact q) ≠ none := by
  rw [promote?]
  split <;> nofun

theorem promote?_exact_number_ne (q : Rat) (x : Float) : (exact q).promote? (number x) ≠ none := by
  rw [promote?_swap (number x) (exact q), Ne, Option.map_eq_none_iff]
  exact promote?_number_exact_ne x q

/-- What a step of promotion does. Numeric operands become numeric operands of other kinds, no truth
values among them. The step is the last one, and the kinds meet, or it started at a truth value. -/
structure Step (x y a b : Value) : Prop where
  before : x.isNumeric = true ∧ y.isNumeric = true
  after : a.isNumeric = true ∧ b.isNumeric = true
  plain : a.kind ≠ .boolean ∧ b.kind ≠ .boolean
  changes : [a.kind, b.kind] ≠ [x.kind, y.kind]
  settles : (a.promote? b = none ∧ a.kind.Meets b.kind) ∨
    ((x.kind = .boolean ∨ y.kind = .boolean) ∧ a.promote? b ≠ none)

theorem promote?_step (promoted : x.promote? y = some (a, b)) : Step x y a b := by
  cases x <;> cases y
  case number.exact x q =>
    rw [promote?] at promoted
    split at promoted <;> cases promoted <;>
      exact ⟨⟨rfl, rfl⟩, ⟨rfl, rfl⟩, ⟨nofun, nofun⟩, nofun, .inl ⟨rfl, .inl rfl⟩⟩
  case exact.number q x =>
    rw [promote?] at promoted
    split at promoted <;> cases promoted <;>
      exact ⟨⟨rfl, rfl⟩, ⟨rfl, rfl⟩, ⟨nofun, nofun⟩, nofun, .inl ⟨rfl, .inl rfl⟩⟩
  all_goals cases promoted
  all_goals refine ⟨⟨rfl, rfl⟩, ⟨rfl, rfl⟩, ⟨nofun, nofun⟩, nofun, ?_⟩
  -- A truth value beside an exact or a complex number is not settled by the step that it takes.
  case boolean.exact.refl => exact .inr ⟨.inl rfl, promote?_number_exact_ne _ _⟩
  case exact.boolean.refl => exact .inr ⟨.inr rfl, promote?_exact_number_ne _ _⟩
  case boolean.complex.refl => exact .inr ⟨.inl rfl, nofun⟩
  case complex.boolean.refl => exact .inr ⟨.inr rfl, nofun⟩
  case boolean.quantity.refl | exact.quantity.refl =>
    exact .inl ⟨rfl, .inr (.inl ⟨rfl, rfl⟩)⟩
  case quantity.boolean.refl | quantity.exact.refl =>
    exact .inl ⟨rfl, .inr (.inr ⟨rfl, rfl⟩)⟩
  all_goals exact .inl ⟨rfl, .inl rfl⟩

/-- Without truth values among the operands, one step is all. -/
theorem Step.last (step : Step x y a b) (hx : x.kind ≠ .boolean) (hy : y.kind ≠ .boolean) :
    a.promote? b = none := by
  rcases step.settles with ⟨settled, -⟩ | ⟨truth | truth, -⟩
  · exact settled
  · exact absurd truth hx
  · exact absurd truth hy

theorem Step.meets (step : Step x y a b) (settled : a.promote? b = none) :
    a.kind.Meets b.kind := by
  rcases step.settles with ⟨-, meets⟩ | ⟨-, unsettled⟩
  · exact meets
  · exact absurd settled unsettled

def SettlesIn : Nat → Value → Value → Prop
  | 0, x, y => x.promote? y = none
  | steps + 1, x, y => ∀ a b, x.promote? y = some (a, b) → SettlesIn steps a b

theorem settlesIn_two (x y : Value) : SettlesIn 2 x y := by
  intro a b first c d second
  obtain ⟨ha, hb⟩ := (promote?_step first).plain
  exact (promote?_step second).last ha hb

end Value

namespace Rule

inductive Reaches (r : Rule) (s : Settings) : Value → Value → Value → Value → Prop
  | here : Reaches r s x y x y
  | promoted : r.direct s x y = none → x.promote? y = some (x', y') → Reaches r s x' y' a b →
      Reaches r s x y a b

/-- The operands that promotion takes `x` and `y` to have no direct rule, and there are no others to
go on to. -/
structure Refuses (r : Rule) (s : Settings) (x y a b : Value) : Prop where
  reached : r.Reaches s x y a b
  direct : r.direct s a b = none
  settled : a.promote? b = none

section

variable {r : Rule} {s : Settings} {x y x' y' a b : Value}

theorem Refuses.promoted (direct : r.direct s x y = none)
    (promoted : x.promote? y = some (x', y')) (refused : r.Refuses s x' y' a b) :
    r.Refuses s x y a b :=
  ⟨.promoted direct promoted refused.reached, refused.direct, refused.settled⟩

/-- Operands that were promoted have other kinds than they started with, after two steps, too. -/
theorem Reaches.kinds_ne (promoted : x.promote? y = some (x', y'))
    (reached : r.Reaches s x' y' a b) : [a.kind, b.kind] ≠ [x.kind, y.kind] := by
  cases reached with
  | here => exact (Value.promote?_step promoted).changes
  | promoted _ again reached =>
    obtain ⟨hx', hy'⟩ := (Value.promote?_step promoted).plain
    cases reached with
    | promoted _ third _ => cases third.symm.trans ((Value.promote?_step again).last hx' hy')
    | here =>
      -- Only truth values are promoted twice, and none is left.
      intro same
      obtain ⟨ha, hb⟩ := (Value.promote?_step again).plain
      obtain ⟨left, right⟩ : a.kind = x.kind ∧ b.kind = y.kind := by simpa using same
      cases again.symm.trans ((Value.promote?_step promoted).last (left ▸ ha) (right ▸ hb))

/-- A refusal names the operands that promotion comes to. -/
theorem Refuses.applyLeaves {steps : Nat} (settles : x.SettlesIn steps y)
    (refused : r.Refuses s x y a b) :
    r.applyLeaves s steps x y = .error (.unsupported r.name [a.kind, b.kind]) := by
  obtain ⟨reached, direct, settled⟩ := refused
  induction reached generalizing steps with
  | here =>
    cases steps with
    | zero => rw [Rule.applyLeaves, direct]; rfl
    | succ steps => rw [Rule.applyLeaves, direct, settled]; rfl
  | promoted none promoted _ ih =>
    cases steps with
    | zero => cases promoted.symm.trans settles
    | succ steps =>
      rw [Rule.applyLeaves, none, promoted]
      exact ih (settles _ _ promoted) direct settled

/-- A run on leaves ends at operands with a direct rule or at operands that are refused. -/
theorem applyLeaves_cases {steps : Nat} (settles : x.SettlesIn steps y) :
    (∃ a b, r.Reaches s x y a b ∧ r.direct s a b = some (r.applyLeaves s steps x y)) ∨
    ∃ a b, r.Refuses s x y a b ∧
      r.applyLeaves s steps x y = .error (.unsupported r.name [a.kind, b.kind]) := by
  induction steps generalizing x y with
  | zero =>
    cases direct : r.direct s x y with
    | some result => exact .inl ⟨x, y, .here, by rw [applyLeaves, direct, Option.getD_some]⟩
    | none => exact .inr ⟨x, y, ⟨.here, direct, settles⟩, by rw [applyLeaves, direct]; rfl⟩
  | succ steps ih =>
    cases direct : r.direct s x y with
    | some result => exact .inl ⟨x, y, .here, by rw [applyLeaves, direct]⟩
    | none =>
      cases promoted : x.promote? y with
      | none =>
        exact .inr ⟨x, y, ⟨.here, direct, promoted⟩, by rw [applyLeaves, direct, promoted]; rfl⟩
      | some operands =>
        obtain ⟨x', y'⟩ := operands
        have run : r.applyLeaves s (steps + 1) x y = r.applyLeaves s steps x' y' := by
          rw [applyLeaves, direct, promoted]
        rw [run]
        rcases ih (settles x' y' promoted) with ⟨a, b, reached, result⟩ | ⟨a, b, refused, result⟩
        · exact .inl ⟨a, b, .promoted direct promoted reached, result⟩
        · exact .inr ⟨a, b, refused.promoted direct promoted, result⟩

end

end Rule
end Reckon
