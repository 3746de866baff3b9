import Reckon.Proofs.Operation.Broadcast
import Reckon.Proofs.Promotion

/-! How promotion ends, and what follows for the calls of a binary operation. `Calls` has no limit on
promotions: each call goes on with the operands of the next step as long as there is one. It ends
because promotion does, after two steps at most and with operands of one kind or with a number and a
quantity, and so the limit of the operation itself is never met. -/
namespace Reckon

namespace Value

inductive PromotesIn : Nat → Value → Value → Value → Value → Prop
  | here : PromotesIn 0 x y x y
  | step : x.promote? y = some (x', y') → PromotesIn n x' y' a b → PromotesIn (n + 1) x y a b

section

variable {x y a b : Value} {n steps : Nat}

theorem isNumeric_iff (v : Value) : v.isNumeric = true ↔ v.kind ∉ [.array, .text, .function] := by
  cases v <;> simp [isNumeric, kind]

theorem isArray_of_isNumeric (numeric : x.isNumeric = true) : x.isArray = false := by
  cases x <;> first | rfl | cases numeric

/-- Arrays, texts and functions are not promoted, on either side. -/
theorem promote?_none (other : x.kind ∈ [.array, .text, .function] ∨
    y.kind ∈ [.array, .text, .function]) : x.promote? y = none := by
  cases promoted : x.promote? y with
  | none => rfl
  | some operands =>
    obtain ⟨hx, hy⟩ := (promote?_step promoted).before
    rcases other with other | other
    · exact absurd other ((isNumeric_iff x).mp hx)
    · exact absurd other ((isNumeric_iff y).mp hy)

theorem SettlesIn.bound (settles : x.SettlesIn steps y) (promotes : PromotesIn n x y a b) :
    n ≤ steps := by
  induction promotes generalizing steps with
  | here => exact Nat.zero_le _
  | step promoted _ ih =>
    cases steps with
    | zero => cases promoted.symm.trans settles
    | succ steps => exact Nat.succ_le_succ (ih (settles _ _ promoted))

theorem SettlesIn.exists (settles : x.SettlesIn steps y) :
    ∃ n a b, PromotesIn n x y a b ∧ a.promote? b = none := by
  induction steps generalizing x y with
  | zero => exact ⟨0, x, y, .here, settles⟩
  | succ steps ih =>
    cases promoted : x.promote? y with
    | none => exact ⟨0, x, y, .here, promoted⟩
    | some operands =>
      obtain ⟨n, a, b, promotes, settled⟩ := ih (settles operands.1 operands.2 promoted)
      exact ⟨n + 1, a, b, .step promoted promotes, settled⟩

/-- The last of one or more steps leaves kinds that meet. -/
theorem PromotesIn.meets (promotes : PromotesIn n x y a b) (moved : 0 < n)
    (settled : a.promote? b = none) : a.kind.Meets b.kind := by
  induction promotes with
  | here => exact absurd moved (Nat.lt_irrefl 0)
  | step promoted rest ih =>
    cases rest with
    | here => exact (promote?_step promoted).meets settled
    | step => exact ih (Nat.succ_pos _) settled

end

end Value

namespace Rule

/-- An operation on two leaves makes so many calls, each inside the one before, and has that
outcome. A call uses the direct rule, goes on with the operands that promotion gives, or refuses
its own. -/
inductive Calls (r : Rule) (s : Settings) : Nat → Value → Value → Outcome Value → Prop
  | direct : r.direct s x y = some result → r.Calls s 1 x y result
  | promoted : r.direct s x y = none → x.isArray = false → y.isArray = false →
      x.promote? y = some (x', y') → r.Calls s n x' y' result → r.Calls s (n + 1) x y result
  | refused : r.direct s x y = none → x.isArray = false → y.isArray = false →
      x.promote? y = none → r.Calls s 1 x y (throw (.unsupportedBy r.name [x, y]))

section

variable {r : Rule} {s : Settings} {x y a b : Value} {n steps : Nat} {result : Outcome Value}

/-- There is one call more than there are steps, at most, and the outcome is that of the leaves. -/
theorem Calls.bound (settles : x.SettlesIn steps y) (calls : r.Calls s n x y result) :
    n ≤ steps + 1 ∧ result = r.applyLeaves s steps x y := by
  induction calls generalizing steps with
  | direct rule => exact ⟨Nat.succ_le_succ (Nat.zero_le _), (applyLeaves_direct rule steps).symm⟩
  | promoted none _ _ promoted _ ih =>
    cases steps with
    | zero => cases promoted.symm.trans settles
    | succ steps =>
      obtain ⟨fewer, same⟩ := ih (settles _ _ promoted)
      exact ⟨Nat.succ_le_succ fewer, by rw [same, applyLeaves, none, promoted]⟩
  | refused none _ _ settled =>
    refine ⟨Nat.succ_le_succ (Nat.zero_le _), ?_⟩
    exact (Refuses.applyLeaves settles ⟨.here, none, settled⟩).symm

/-- Leaves are promoted to leaves, so that every call is one for leaves again. -/
theorem Reaches.calls (reached : r.Reaches s x y a b) (hx : x.isArray = false)
    (hy : y.isArray = false)
    (last : a.isArray = false → b.isArray = false → r.Calls s 1 a b result) :
    ∃ n, r.Calls s n x y result := by
  induction reached with
  | here => exact ⟨1, last hx hy⟩
  | promoted none promoted _ ih =>
    obtain ⟨hx', hy'⟩ := (Value.promote?_step promoted).after
    obtain ⟨n, calls⟩ :=
      ih (Value.isArray_of_isNumeric hx') (Value.isArray_of_isNumeric hy') last
    exact ⟨n + 1, .promoted none hx hy promoted calls⟩

theorem calls_applyLeaves (settles : x.SettlesIn steps y) (hx : x.isArray = false)
    (hy : y.isArray = false) : ∃ n, r.Calls s n x y (r.applyLeaves s steps x y) := by
  rcases applyLeaves_cases settles with ⟨a, b, reached, rule⟩ | ⟨a, b, refused, fails⟩
  · exact reached.calls hx hy fun _ _ => .direct rule
  · rw [fails]
    exact refused.reached.calls hx hy fun ha hb =>
      .refused refused.direct ha hb refused.settled

/-- Promotion treats two values alike in both orders and never touches arrays, texts and functions.
It ends after two steps at most and, if there was one, with operands whose kinds meet. So the calls
of each binary operation on two leaves end, with the outcome that the operation has, and no more
than three are open at once. -/
theorem promotion_settles (x y : Value) :
    y.promote? x = (x.promote? y).map Prod.swap ∧
    (x.kind ∈ [.array, .text, .function] ∨ y.kind ∈ [.array, .text, .function] →
      x.promote? y = none) ∧
    (∃ n a b, Value.PromotesIn n x y a b ∧ a.promote? b = none) ∧
    (∀ n a b, Value.PromotesIn n x y a b →
      n ≤ 2 ∧ (0 < n → a.promote? b = none → a.kind.Meets b.kind)) ∧
    (x.isArray = false → y.isArray = false → ∀ (r : Rule) (s : Settings),
      (∃ n, r.Calls s n x y (r.apply s x y)) ∧
      ∀ n result, r.Calls s n x y result → n ≤ 3 ∧ result = r.apply s x y) := by
  have settles := Value.settlesIn_two x y
  refine ⟨Value.promote?_swap x y, Value.promote?_none, settles.exists, ?_, ?_⟩
  · exact fun n a b promotes => ⟨settles.bound promotes, promotes.meets⟩
  · intro hx hy r s
    rw [apply_leaves r s hx hy]
    exact ⟨calls_applyLeaves settles hx hy, fun n result calls => calls.bound settles⟩

/-- A truth value and a complex number take two steps and three calls. -/
theorem promotion_settles_complex :
    let x : Value := .boolean true
    let y : Value := .complex ⟨0, 1⟩
    (x.isArray = false ∧ y.isArray = false) ∧
      (∃ a b, Value.PromotesIn 2 x y a b ∧ a.promote? b = none ∧ a.kind.Meets b.kind) ∧
      add.Calls {} 3 x y (add.apply {} x y) := by
  intro x y
  obtain ⟨-, -, -, ends, calls⟩ := promotion_settles x y
  have promotes : Value.PromotesIn 2 x y (.complex (.ofReal (Value.ofBool true))) y :=
    .step rfl (.step rfl .here)
  have made : add.Calls {} 3 x y (.ok (.complex (.ofReal (Value.ofBool true) + ⟨0, 1⟩))) :=
    .promoted rfl rfl rfl rfl (.promoted rfl rfl rfl rfl (.direct rfl))
  refine ⟨⟨rfl, rfl⟩, ⟨_, _, promotes, rfl, (ends _ _ _ promotes).2 (by decide) rfl⟩, ?_⟩
  exact ((calls rfl rfl add {}).2 _ _ made).2 ▸ made

end

end Rule
end Reckon
